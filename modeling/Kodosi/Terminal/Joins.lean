import Kodosi.Lib.Run
import Kodosi.Terminal.Remote

/-! A subscription joins the stream of a remote terminal without a gap: its checkpoint, what it is replayed and what
    it is sent later are the stream from the cut on, with every size that the terminal took after the cut. -/

namespace Kodosi.Terminal
open Kodosi.Lib

variable {κ : Type}

/-! ### Streams -/

/-- The items lead from one place of a stream to another: output with the next sequence each, and each size at the
    place where it is taken. -/
def Follows : Nat → List Item → Nat → Prop
  | n, [], m => n = m
  | n, .data f :: items, m => f.sequence = n ∧ Follows (n + 1) items m
  | n, .resize r :: items, m => r.atSequence = n ∧ Follows n items m

def Item.data? : Item → Option DataFrame
  | .data f => some f
  | .resize _ => none

/-- The output of a stream. -/
def output (items : List Item) : List DataFrame := items.filterMap Item.data?

namespace Follows

theorem append : ∀ {xs ys : List Item} {n k m : Nat}, Follows n xs k → Follows k ys m → Follows n (xs ++ ys) m
  | [], _, _, _, _, hx, hy => hx ▸ hy
  | .data _ :: _, _, _, _, _, hx, hy => ⟨hx.1, hx.2.append hy⟩
  | .resize _ :: _, _, _, _, _, hx, hy => ⟨hx.1, hx.2.append hy⟩

theorem rest : ∀ {xs ys : List Item} {n k m : Nat}, Follows n (xs ++ ys) m → Follows n xs k → Follows k ys m
  | [], _, _, _, _, h, hx => hx ▸ h
  | .data _ :: _, _, _, _, _, h, hx => h.2.rest hx.2
  | .resize _ :: _, _, _, _, _, h, hx => h.2.rest hx.2

theorem le : ∀ {items : List Item} {n m : Nat}, Follows n items m → n ≤ m
  | [], _, _, h => Nat.le_of_eq h
  | .data _ :: _, _, _, h => Nat.le_of_succ_le h.2.le
  | .resize _ :: _, _, _, h => h.2.le

theorem data_range : ∀ {items : List Item} {n m : Nat}, Follows n items m → ∀ f ∈ output items,
    n ≤ f.sequence ∧ f.sequence < m
  | [], _, _, _, _, hf => absurd hf List.not_mem_nil
  | .data g :: items, n, m, h, f, hf => by
    have hle := h.2.le
    rcases List.mem_cons.mp hf with rfl | hf
    · have := h.1
      omega
    · have := h.2.data_range f hf
      omega
  | .resize _ :: _, _, _, h, f, hf => h.2.data_range f hf

theorem resize_range : ∀ {items : List Item} {n m : Nat} {r : Resize}, Follows n items m → .resize r ∈ items →
    n ≤ r.atSequence ∧ r.atSequence ≤ m
  | [], _, _, _, _, hr => absurd hr List.not_mem_nil
  | .data _ :: items, n, m, r, h, hr => by
    obtain hr : .resize r ∈ items := by simpa using hr
    have := h.2.resize_range hr
    omega
  | .resize r' :: items, n, m, r, h, hr => by
    have hle := h.2.le
    rcases List.mem_cons.mp hr with heq | hr
    · obtain rfl : r = r' := by simpa using heq
      have := h.1
      omega
    · exact h.2.resize_range hr

theorem rising : ∀ {items : List Item} {n m : Nat}, Follows n items m →
    (output items).Pairwise (·.sequence < ·.sequence)
  | [], _, _, _ => List.Pairwise.nil
  | .data f :: items, n, m, h => by
    refine List.pairwise_cons.mpr ⟨fun g hg => ?_, h.2.rising⟩
    have := h.2.data_range g hg
    have := h.1
    omega
  | .resize _ :: _, _, _, h => h.2.rising

/-- A stream whose sizes are all from before a place is cut there into what came before and mere output. -/
theorem cut : ∀ {items : List Item} {n m : Nat} (k : Nat), Follows n items m → n ≤ k → k ≤ m →
    (∀ r, .resize r ∈ items → r.atSequence < k) →
    ∃ before, items = before ++ ((output items).filter (k ≤ ·.sequence)).map .data ∧ Follows n before k
  | [], n, m, k, h, hn, hm, _ => by
    obtain rfl : n = m := h
    exact ⟨[], rfl, Nat.le_antisymm hn hm⟩
  | .data f :: items, n, m, k, h, hn, hm, hsizes => by
    have hrest : ∀ r, .resize r ∈ items → r.atSequence < k := fun r hr => hsizes r (List.mem_cons_of_mem _ hr)
    have houtput : output (.data f :: items) = f :: output items := rfl
    obtain ⟨hf, hfollows⟩ := h
    by_cases hk : n = k
    · subst hk
      -- No size is taken from here on, so what follows is output.
      have hall : (output items).filter (n ≤ ·.sequence) = output items :=
        List.filter_eq_self.mpr fun g hg => decide_eq_true (by have := hfollows.data_range g hg; omega)
      have hmere : items = (output items).map .data := by
        have hdata : ∀ item ∈ items, ∃ g, item = .data g := by
          intro item hitem
          cases item with
          | data g => exact ⟨g, rfl⟩
          | resize r =>
            have := hrest r hitem
            have := hfollows.resize_range hitem
            omega
        clear hall hsizes hrest houtput hfollows hm hn hf
        induction items with
        | nil => rfl
        | cons item items ih =>
          obtain ⟨hitem, hitems⟩ := List.forall_mem_cons.mp hdata
          obtain ⟨g, rfl⟩ := hitem
          exact congrArg (Item.data g :: ·) (ih hitems)
      refine ⟨[], ?_, rfl⟩
      rw [houtput, List.filter_cons, if_pos (decide_eq_true (Nat.le_of_eq hf.symm)), hall, List.map_cons, ← hmere]
      rfl
    · obtain ⟨before, hbefore, hstart⟩ := hfollows.cut k (by omega) hm hrest
      refine ⟨.data f :: before, ?_, hf, hstart⟩
      have hold : ¬k ≤ f.sequence := by omega
      rw [houtput, List.filter_cons, if_neg (by simpa using hold), List.cons_append, ← hbefore]
  | .resize r :: items, n, m, k, h, hn, hm, hsizes => by
    have hrest : ∀ r, .resize r ∈ items → r.atSequence < k := fun r hr => hsizes r (List.mem_cons_of_mem _ hr)
    obtain ⟨before, hbefore, hstart⟩ := h.2.cut k hn hm hrest
    refine ⟨.resize r :: before, ?_, h.1, hstart⟩
    show _ = Item.resize r :: (before ++ ((output items).filter _).map .data)
    rw [← hbefore]

end Follows

/-! ### What a view has -/

/-- A view has the stream from its cut on. What the stream was when the view got its checkpoint is what came before
    the cut and the output that the view was replayed; it was put that output and all that came later. No size that
    the terminal took at or after the cut is among what came before, when the checkpoint was late. -/
def Joined (base place : Nat) (stream : List Item) (v : RemoteView κ) : Prop :=
  ∃ (before : List Item) (replayed : List DataFrame) (later : List Item),
    v.known = before ++ replayed.map .data ∧ stream = v.known ++ later ∧ v.put = replayed.map .data ++ later ∧
    Follows base before v.cut ∧ Follows v.cut v.put place ∧
    (replayed ≠ [] → ∀ r, .resize r ∈ before → r.atSequence < v.cut)

/-- What holds of a remote terminal whatever it was told. -/
structure RemoteActor.Valid (a : RemoteActor κ) : Prop where
  stream : Follows a.base a.stream a.place
  recent : a.nextSequence ≠ none → ∃ older, output a.stream = older ++ a.recent
  sizes : a.nextSequence ≠ none → ∀ r, .resize r ∈ a.stream → ∃ last ∈ a.lastResize, r.atSequence ≤ last
  views : ∀ (id : Nat) (v : RemoteView κ), a.subscribers[id]? = some v → v.link.behind = false →
    Joined a.base a.place a.stream v
  checkpoints : ∀ (id : Nat) (v : RemoteView κ), a.subscribers[id]? = some v →
    ⟨v.checkpoint, v.cut⟩ ∈ a.received ∧ ∃ m, Follows v.cut v.put m
  resyncs : a.nextSequence = none → a.resyncing = false → a.subscribers.isEmpty = true
  silent : a.nextSequence = none → a.futureCheckpoint = none ∧ a.recent = []
  future : ∀ f ∈ a.futureCheckpoint, a.place < f.nextSequence ∧ f.toCheckpointCut ∈ a.received
  given : ∀ g ∈ a.given, g.nextSequence ≤ g.current ∧ (g.seen < g.nextSequence → g.current = g.nextSequence) ∧
    g.toCheckpointCut ∈ a.received

namespace RemoteView

variable {base place place' : Nat} {stream : List Item} {v : RemoteView κ}

variable {send : Link κ → Link κ}

theorem joined_offer {item : Item} (h : Joined base place stream v) (hitem : Follows place [item] place')
    (hsend : (send v.link).behind = false) :
    Joined base place' (stream ++ [item]) (v.offer send item) := by
  obtain ⟨before, replayed, later, hknown, hstream, hput, hstart, hcontiguous, hsizes⟩ := h
  have hoffer : (v.offer send item).put = v.put ++ [item] := if_neg (by simp [hsend])
  refine ⟨before, replayed, later ++ [item], hknown, ?_, ?_, hstart, ?_, hsizes⟩
  · rw [hstream, List.append_assoc]
    rfl
  · rw [hoffer, hput, List.append_assoc]
  · rw [hoffer]
    exact hcontiguous.append hitem

/-- What a view was put stays without a gap, also when it falls behind. -/
theorem offer_whole {item : Item} (h : ∃ m, Follows v.cut v.put m)
    (hjoined : (send v.link).behind = false → Joined base place stream (v.offer send item)) :
    ∃ m, Follows (v.offer send item).cut (v.offer send item).put m := by
  by_cases hbehind : (send v.link).behind = true
  · have hput : (v.offer send item).put = v.put := if_pos hbehind
    rw [hput]
    exact h
  · obtain ⟨-, -, -, -, -, -, -, hcontiguous, -⟩ := hjoined (by simpa using hbehind)
    exact ⟨place, hcontiguous⟩

/-- A view that starts anew has all that came before behind it. -/
theorem joined_fresh (link : Link κ) (checkpoint : κ) (hstream : Follows base stream place) :
    Joined base place stream ⟨link, checkpoint, place, stream, []⟩ :=
  ⟨stream, [], [], (List.append_nil _).symm, (List.append_nil _).symm, rfl, hstream, rfl, fun h => absurd rfl h⟩

theorem behind_data {frame : DataFrame} {l : Link κ} (h : (l.putData frame).behind = false) : l.behind = false := by
  unfold Link.putData at h
  split at h
  · exact h
  · rename_i hbehind
    simpa using hbehind

theorem behind_resize {r : Resize} {l : Link κ} (h : (l.putControl (.resize r)).behind = false) : l.behind = false := by
  unfold Link.putControl at h
  simp only at h
  split at h
  · exact h
  · rename_i hbehind
    simpa using hbehind

theorem data_joined {frame : DataFrame} (h : v.link.behind = false → Joined base place stream v)
    (hplace : frame.sequence = place) (hafter : (v.data frame).link.behind = false) :
    Joined base (place + 1) (stream ++ [.data frame]) (v.data frame) :=
  joined_offer (h (behind_data hafter)) ⟨hplace, rfl⟩ hafter

theorem resize_joined {r : Resize} (h : v.link.behind = false → Joined base place stream v)
    (hplace : r.atSequence = place) (hafter : (v.resize r).link.behind = false) :
    Joined base place (stream ++ [.resize r]) (v.resize r) :=
  joined_offer (h (behind_resize hafter)) ⟨hplace, rfl⟩ hafter

variable {checkpoint : κ}

theorem snapshot_joined (hstream : Follows base stream place)
    (hafter : (v.snapshot stream checkpoint place).link.behind = false) :
    Joined base place stream (v.snapshot stream checkpoint place) := by
  unfold snapshot at hafter ⊢
  by_cases hbehind : (v.link.putControl (.snapshot checkpoint place)).behind = true
  · simp only [hbehind, if_true] at hafter
    cases hafter
  · simp only [hbehind]
    exact joined_fresh _ _ hstream

theorem refresh_joined (h : v.link.behind = false → Joined base place stream v) (hstream : Follows base stream place)
    (hafter : (v.refresh stream checkpoint place).link.behind = false) :
    Joined base place stream (v.refresh stream checkpoint place) := by
  unfold refresh at hafter ⊢
  split at hafter
  · rename_i hcaught
    rw [if_pos hcaught]
    exact snapshot_joined hstream hafter
  · rename_i hcaught
    rw [if_neg hcaught]
    exact h hafter

theorem snapshot_whole {cut : Nat} (h : ∃ m, Follows v.cut v.put m) :
    ∃ m, Follows (v.snapshot stream checkpoint cut).cut (v.snapshot stream checkpoint cut).put m := by
  unfold snapshot
  by_cases hbehind : (v.link.putControl (.snapshot checkpoint cut)).behind = true
  · simpa only [hbehind, if_true] using h
  · simp only [hbehind]
    exact ⟨cut, rfl⟩

/-- The checkpoint that a view has is the one it had, or the snapshot. -/
theorem snapshot_checkpoint (stream : List Item) (checkpoint : κ) (cut : Nat) (v : RemoteView κ) :
    (⟨(v.snapshot stream checkpoint cut).checkpoint, (v.snapshot stream checkpoint cut).cut⟩ : CheckpointCut κ) =
        ⟨v.checkpoint, v.cut⟩ ∨
      (⟨(v.snapshot stream checkpoint cut).checkpoint, (v.snapshot stream checkpoint cut).cut⟩ : CheckpointCut κ) =
        ⟨checkpoint, cut⟩ := by
  unfold snapshot
  by_cases hbehind : (v.link.putControl (.snapshot checkpoint cut)).behind = true
  · simp [hbehind]
  · simp [hbehind]

end RemoteView

namespace RemoteActor

variable {a : RemoteActor κ}

theorem views_each {f : RemoteView κ → RemoteView κ} {id : Nat} {v' : RemoteView κ}
    (hv : (a.each f).subscribers[id]? = some v') : ∃ v, a.subscribers[id]? = some v ∧ v' = f v := by
  rw [each, Std.TreeMap.getElem?_map, Option.map_eq_some_iff] at hv
  obtain ⟨v, hv, rfl⟩ := hv
  exact ⟨v, hv, rfl⟩

/-! ### Sizes -/

theorem geometry_same (size : TerminalSize) (cell : CellPixels) (cut : Nat) (a : RemoteActor κ) :
    (a.geometry size cell cut).nextSequence = a.nextSequence ∧ (a.geometry size cell cut).recent = a.recent ∧
      (a.geometry size cell cut).received = a.received ∧
      (a.geometry size cell cut).futureCheckpoint = a.futureCheckpoint := by
  unfold geometry
  split <;> exact ⟨rfl, rfl, rfl, rfl⟩

theorem output_resize (stream : List Item) (r : Resize) : output (stream ++ [.resize r]) = output stream := by
  simp [output, Item.data?]

theorem valid_geometry {size : TerminalSize} {cell : CellPixels} {cut : Nat} (h : a.Valid)
    (hnext : a.nextSequence = some cut) : (a.geometry size cell cut).Valid := by
  have hplace : a.place = cut := by rw [place, hnext]; rfl
  unfold geometry
  split
  · refine ⟨?_, ?_, ?_, ?_, ?_, ?_, h.silent, h.future, h.given⟩
    · exact h.stream.append ⟨hplace.symm, rfl⟩
    · intro hsome
      obtain ⟨older, holder⟩ := h.recent hsome
      exact ⟨older, (output_resize _ _).trans holder⟩
    · intro _ r hr
      refine ⟨cut, rfl, ?_⟩
      rcases List.mem_append.mp hr with hr | hr
      · exact hplace ▸ (h.stream.resize_range hr).2
      · obtain rfl : r = _ := by simpa using hr
        exact Nat.le_refl _
    · intro id v' hv' hbehind
      obtain ⟨v, hv, rfl⟩ := views_each hv'
      exact RemoteView.resize_joined (h.views id v hv) hplace.symm hbehind
    · intro id v' hv'
      obtain ⟨v, hv, rfl⟩ := views_each hv'
      obtain ⟨hin, hwhole⟩ := h.checkpoints id v hv
      exact ⟨hin, RemoteView.offer_whole hwhole fun hbehind =>
        RemoteView.resize_joined (h.views id v hv) hplace.symm hbehind⟩
    · exact fun hnone => absurd (hnext.symm.trans hnone) nofun
  · exact ⟨h.stream, h.recent, h.sizes, h.views, h.checkpoints, h.resyncs, h.silent, h.future, h.given⟩

/-! ### Answers -/

/-- What an answer leaves as it is. -/
structure Same (a b : RemoteActor κ) : Prop where
  nextSequence : b.nextSequence = a.nextSequence
  delivered : b.delivered = a.delivered
  recent : b.recent = a.recent
  lastResize : b.lastResize = a.lastResize
  stream : b.stream = a.stream
  base : b.base = a.base
  received : b.received = a.received
  future : b.futureCheckpoint = a.futureCheckpoint
  resyncing : b.resyncing = a.resyncing

variable {b : RemoteActor κ}

theorem Same.trans {c : RemoteActor κ} (h : Same a b) (h' : Same b c) : Same a c :=
  ⟨h'.nextSequence.trans h.nextSequence, h'.delivered.trans h.delivered, h'.recent.trans h.recent,
    h'.lastResize.trans h.lastResize, h'.stream.trans h.stream, h'.base.trans h.base, h'.received.trans h.received,
    h'.future.trans h.future, h'.resyncing.trans h.resyncing⟩

/-- A checkpoint that may be given: it is for a place that the stream has reached, and for the very place when it
    came before. -/
structure Due (a : RemoteActor κ) (cut : FutureCheckpoint κ) : Prop where
  reached : ∃ n, a.nextSequence = some n ∧ cut.nextSequence ≤ n ∧ (cut.seen < cut.nextSequence → n = cut.nextSequence)
  received : cut.toCheckpointCut ∈ a.received

variable {cut : FutureCheckpoint κ}

theorem Due.place_le (h : a.Due cut) : cut.nextSequence ≤ a.place ∧
    (cut.seen < cut.nextSequence → a.place = cut.nextSequence) := by
  obtain ⟨n, hn, hle, hseen⟩ := h.reached
  rw [place, hn]
  exact ⟨hle, hseen⟩

theorem Due.same (h : a.Due cut) (hsame : Same a b) : b.Due cut :=
  ⟨by rw [hsame.nextSequence]; exact h.reached, by rw [hsame.received]; exact h.received⟩

/-- A new view at a cut from where the recent output and the sizes are at hand joins the stream. -/
theorem joined_subscribe (link : Link κ) (h : a.Valid) (hdue : a.Due cut)
    (hreplayable : a.replayable cut.nextSequence = true) :
    Joined a.base a.place a.stream ⟨link, cut.checkpoint, cut.nextSequence, a.stream,
      (a.recent.filter (cut.nextSequence ≤ ·.sequence)).map .data⟩ := by
  obtain ⟨n, hn, hle, -⟩ := hdue.reached
  have hplace : a.place = n := by rw [place, hn]; rfl
  obtain ⟨older, holder⟩ := h.recent (by simp [hn])
  have hrising := h.stream.rising
  rw [holder] at hrising
  by_cases hcut : cut.nextSequence = n
  · have hnone : a.recent.filter (cut.nextSequence ≤ ·.sequence) = [] := by
      refine List.filter_eq_nil_iff.mpr fun f hf => ?_
      have hin : f ∈ output a.stream := holder ▸ List.mem_append_right _ hf
      have := (h.stream.data_range f hin).2
      simp only [decide_eq_true_eq]
      omega
    rw [hnone, hcut, ← hplace]
    exact RemoteView.joined_fresh link cut.checkpoint h.stream
  · have hfacts : (∃ first ∈ a.recent.head?, first.sequence ≤ cut.nextSequence) ∧
        ∀ last ∈ a.lastResize, last < cut.nextSequence := by
      have hor : cut.nextSequence = n ∨ (a.recent.head?.any (·.sequence ≤ cut.nextSequence) = true ∧
          a.lastResize.all (· < cut.nextSequence) = true) := by
        have hboth := of_decide_eq_true hreplayable
        rw [hn] at hboth
        exact hboth.2
      obtain ⟨hfirst, hlast⟩ := hor.resolve_left hcut
      refine ⟨?_, fun last hlast' => of_decide_eq_true ((Option.all_eq_true _ _).mp hlast last hlast')⟩
      obtain ⟨first, hfirst', hle⟩ := (Option.any_eq_true _ _).mp hfirst
      exact ⟨first, hfirst', of_decide_eq_true hle⟩
    obtain ⟨⟨first, hfirst, hfirstle⟩, hlast⟩ := hfacts
    have hsizes : ∀ r, .resize r ∈ a.stream → r.atSequence < cut.nextSequence := by
      intro r hr
      obtain ⟨last, hin, hrlast⟩ := h.sizes (by simp [hn]) r hr
      have := hlast last hin
      omega
    have hin : first ∈ output a.stream := holder ▸ List.mem_append_right _ (List.mem_of_mem_head? hfirst)
    have hbase := (h.stream.data_range first hin).1
    obtain ⟨before, hbefore, hstart⟩ := h.stream.cut cut.nextSequence (by omega) (hplace ▸ hle) hsizes
    -- The output from the cut on is among the recent one.
    have hold : older.filter (cut.nextSequence ≤ ·.sequence) = [] := by
      refine List.filter_eq_nil_iff.mpr fun f hf => ?_
      have hlt := (List.pairwise_append.mp hrising).2.2 f hf first (List.mem_of_mem_head? hfirst)
      simp only [decide_eq_true_eq]
      omega
    rw [holder, List.filter_append, hold, List.nil_append] at hbefore
    refine ⟨before, _, [], hbefore, (List.append_nil _).symm, (List.append_nil _).symm, hstart, ?_, ?_⟩
    · exact (hbefore ▸ h.stream).rest hstart
    · intro _ r hr
      exact hsizes r (hbefore ▸ List.mem_append_left _ hr)

theorem valid_reply (h : a.Valid) (request : Nat) (r : Reply κ) : (a.reply request r).Valid :=
  ⟨h.stream, h.recent, h.sizes, h.views, h.checkpoints, h.resyncs, h.silent, h.future, h.given⟩

theorem valid_pending (h : a.Valid) (pending : List PendingCapture) : Valid { a with pending } :=
  ⟨h.stream, h.recent, h.sizes, h.views, h.checkpoints, h.resyncs, h.silent, h.future, h.given⟩

theorem same_reply (request : Nat) (r : Reply κ) : Same a (a.reply request r) :=
  ⟨rfl, rfl, rfl, rfl, rfl, rfl, rfl, rfl, rfl⟩

theorem same_refl : Same a a := ⟨rfl, rfl, rfl, rfl, rfl, rfl, rfl, rfl, rfl⟩

theorem given_due (h : a.Valid) (hdue : a.Due cut) : ∀ g ∈ a.given ++ [⟨cut, a.place⟩],
    g.nextSequence ≤ g.current ∧ (g.seen < g.nextSequence → g.current = g.nextSequence) ∧
      g.toCheckpointCut ∈ a.received := by
  intro g hg
  rcases List.mem_append.mp hg with hg | hg
  · exact h.given g hg
  · obtain rfl := List.mem_singleton.mp hg
    exact ⟨hdue.place_le.1, hdue.place_le.2, hdue.received⟩

theorem valid_subscribe (h : a.Valid) (hdue : a.Due cut) (w : PendingCapture)
    (hreplayable : a.replayable cut.nextSequence = true) : (a.subscribe w cut).Valid ∧ Same a (a.subscribe w cut) := by
  unfold subscribe
  simp only
  split
  · exact ⟨valid_reply h _ _, same_reply _ _⟩
  · split
    · exact ⟨valid_reply h _ _, same_reply _ _⟩
    · refine ⟨⟨h.stream, h.recent, h.sizes, ?_, ?_, ?_, h.silent, h.future, given_due h hdue⟩,
        ⟨rfl, rfl, rfl, rfl, rfl, rfl, rfl, rfl, rfl⟩⟩
      · intro id v hv hbehind
        rw [Std.TreeMap.getElem?_insert] at hv
        split at hv
        · obtain rfl := Option.some.inj hv
          have hjoined := fun link => joined_subscribe link h hdue hreplayable
          exact hjoined _
        · exact h.views id v hv hbehind
      · intro id v hv
        rw [Std.TreeMap.getElem?_insert] at hv
        split at hv
        · obtain rfl := Option.some.inj hv
          obtain ⟨-, -, -, -, -, -, -, hcontiguous, -⟩ :=
            joined_subscribe ⟨[], [], false, true, ⟨cut.checkpoint, cut.nextSequence, [], none, none⟩⟩ h hdue hreplayable
          exact ⟨hdue.received, _, hcontiguous⟩
        · exact h.checkpoints id v hv
      · obtain ⟨n, hn, -⟩ := hdue.reached
        exact fun hnone => absurd (hn.symm.trans hnone) nofun

theorem valid_answer {replayable : Bool} (h : a.Valid) (hdue : a.Due cut)
    (hreplayable : replayable = true → a.replayable cut.nextSequence = true) (w : PendingCapture) :
    (answer cut replayable a w).Valid ∧ Same a (answer cut replayable a w) := by
  unfold answer
  split
  · exact ⟨h, same_refl⟩
  · split
    · exact ⟨valid_pending h _, ⟨rfl, rfl, rfl, rfl, rfl, rfl, rfl, rfl, rfl⟩⟩
    · split
      · split
        · refine ⟨⟨h.stream, h.recent, h.sizes, h.views, h.checkpoints, h.resyncs, h.silent, h.future,
            given_due h hdue⟩, ⟨rfl, rfl, rfl, rfl, rfl, rfl, rfl, rfl, rfl⟩⟩
        · exact ⟨valid_reply h _ _, same_reply _ _⟩
      · split
        · rename_i hyes
          exact valid_subscribe h hdue w (hreplayable hyes)
        · exact ⟨valid_pending h _, ⟨rfl, rfl, rfl, rfl, rfl, rfl, rfl, rfl, rfl⟩⟩

theorem replayable_same (h : Same a b) (cut : Nat) : b.replayable cut = a.replayable cut := by
  simp only [replayable, h.nextSequence, h.recent, h.lastResize]

theorem valid_answers {replayable : Bool} : ∀ (pending : List PendingCapture)
    {a : RemoteActor κ}, a.Valid → a.Due cut → (replayable = true → a.replayable cut.nextSequence = true) →
    (pending.foldl (answer cut replayable) a).Valid ∧ Same a (pending.foldl (answer cut replayable) a)
  | [], _, h, _, _ => ⟨h, same_refl⟩
  | w :: pending, a, h, hdue, hreplayable => by
    obtain ⟨hone, hsame⟩ := valid_answer h hdue hreplayable w
    obtain ⟨hall, hsames⟩ := valid_answers pending hone (hdue.same hsame)
      (fun hyes => (replayable_same hsame _).trans (hreplayable hyes))
    exact ⟨hall, hsame.trans hsames⟩

theorem valid_fulfill (h : a.Valid) (hdue : a.Due cut) : (a.fulfill cut).Valid ∧ Same a (a.fulfill cut) := by
  have hrefreshed : ∀ b, b = (if cut.nextSequence = a.nextSequence.getD cut.nextSequence then
      a.each (RemoteView.refresh a.stream cut.checkpoint cut.nextSequence) else a) → b.Valid ∧ Same a b := by
    rintro b rfl
    split
    · rename_i hcurrent
      obtain ⟨n, hn, -⟩ := hdue.reached
      have hplace : cut.nextSequence = a.place := by
        rw [hcurrent, place, hn]
        rfl
      refine ⟨⟨h.stream, h.recent, h.sizes, ?_, ?_, ?_, h.silent, h.future, h.given⟩,
        ⟨rfl, rfl, rfl, rfl, rfl, rfl, rfl, rfl, rfl⟩⟩
      · intro id v' hv' hbehind
        obtain ⟨v, hv, rfl⟩ := views_each hv'
        rw [hplace] at hbehind ⊢
        exact RemoteView.refresh_joined (h.views id v hv) h.stream hbehind
      · intro id v' hv'
        obtain ⟨v, hv, rfl⟩ := views_each hv'
        obtain ⟨hold, hwhole⟩ := h.checkpoints id v hv
        unfold RemoteView.refresh
        split
        · refine ⟨?_, RemoteView.snapshot_whole hwhole⟩
          rcases RemoteView.snapshot_checkpoint a.stream cut.checkpoint cut.nextSequence v with heq | heq
          · rw [heq]
            exact hold
          · rw [heq]
            exact hdue.received
        · exact ⟨hold, hwhole⟩
      · exact fun hnone => absurd (hn.symm.trans hnone) nofun
    · exact ⟨h, same_refl⟩
  unfold fulfill
  simp only
  obtain ⟨hvalid, hsame⟩ := hrefreshed _ rfl
  have hcleared : Same a { (if cut.nextSequence = a.nextSequence.getD cut.nextSequence then
      a.each (RemoteView.refresh a.stream cut.checkpoint cut.nextSequence) else a) with pending := [] } :=
    ⟨hsame.nextSequence, hsame.delivered, hsame.recent, hsame.lastResize, hsame.stream, hsame.base, hsame.received,
      hsame.future, hsame.resyncing⟩
  obtain ⟨hall, hsames⟩ := valid_answers a.pending
    (valid_pending hvalid []) (hdue.same hcleared) (fun hyes => (replayable_same hcleared _).trans hyes)
  exact ⟨hall, hcleared.trans hsames⟩

/-! ### Updates -/

variable {S : Screens κ}

theorem valid_reset (h : a.Valid) : a.reset.Valid where
  stream := h.stream
  recent hsome := absurd rfl hsome
  sizes hsome := absurd rfl hsome
  views := h.views
  checkpoints := h.checkpoints
  resyncs _ hresyncing := nomatch hresyncing
  silent _ := ⟨rfl, rfl⟩
  future _ hf := nomatch hf
  given := h.given

theorem output_data (stream : List Item) (f : DataFrame) : output (stream ++ [.data f]) = output stream ++ [f] := by
  simp [output, Item.data?]

theorem push_recent (frame : DataFrame) (a : RemoteActor κ) :
    ∃ gone, a.recent ++ [frame] = gone ++ (a.push frame).recent := by
  refine ⟨(a.recent ++ [frame]).take ((a.recent ++ [frame]).length - DATA_CAPACITY), ?_⟩
  simp only [push]
  rw [List.take_append_drop]

/-- Output goes to every view, and the newest stays at hand. -/
theorem valid_push {frame : DataFrame} (h : a.Valid) (hnext : a.nextSequence = some frame.sequence)
    (future : Option (FutureCheckpoint κ))
    (hfuture : ∀ f ∈ future, frame.sequence + 1 < f.nextSequence ∧ f.toCheckpointCut ∈ a.received) :
    Valid { a.push frame with futureCheckpoint := future } := by
  have hplace : a.place = frame.sequence := by rw [place, hnext]; rfl
  refine ⟨?_, ?_, ?_, ?_, ?_, nofun, nofun, hfuture, h.given⟩
  · exact h.stream.append ⟨hplace.symm, congrArg (· + 1) hplace⟩
  · intro _
    obtain ⟨older, holder⟩ := h.recent (by simp [hnext])
    obtain ⟨gone, hgone⟩ := push_recent frame a
    exact ⟨older ++ gone, by rw [List.append_assoc, ← hgone, ← List.append_assoc, ← holder]; exact output_data _ _⟩
  · intro _ r hr
    have hr : .resize r ∈ a.stream ++ [.data frame] := hr
    exact h.sizes (by simp [hnext]) r (by simpa using hr)
  · intro id v' hv' hbehind
    obtain ⟨v, hv, rfl⟩ := views_each hv'
    have hjoined := RemoteView.data_joined (h.views id v hv) hplace.symm hbehind
    rwa [hplace] at hjoined
  · intro id v' hv'
    obtain ⟨v, hv, rfl⟩ := views_each hv'
    obtain ⟨hin, hwhole⟩ := h.checkpoints id v hv
    exact ⟨hin, RemoteView.offer_whole hwhole fun hbehind =>
      RemoteView.data_joined (h.views id v hv) hplace.symm hbehind⟩

/-- The checkpoint that waited for a place is given when the stream gets there. -/
theorem valid_reachCut {next : Nat} (hnext : a.nextSequence = some next)
    (hfuture : ∀ f ∈ a.futureCheckpoint, next ≤ f.nextSequence ∧ f.toCheckpointCut ∈ a.received)
    (h : ∀ future : Option (FutureCheckpoint κ), (∀ f ∈ future, next < f.nextSequence ∧
      f.toCheckpointCut ∈ a.received) → Valid { a with futureCheckpoint := future }) : (reachCut S next a).Valid := by
  unfold reachCut
  split
  · rename_i cut hcut
    obtain ⟨hle, hin⟩ := hfuture cut hcut
    split
    · rename_i hreached
      have hsame := geometry_same (S.size cut.checkpoint) (S.cell cut.checkpoint) next
        { a with futureCheckpoint := none }
      have hgeometry : Valid ({ a with futureCheckpoint := none }.geometry (S.size cut.checkpoint)
          (S.cell cut.checkpoint) next) := valid_geometry (h none nofun) hnext
      refine (valid_fulfill hgeometry ⟨⟨next, hsame.1.trans hnext, Nat.le_refl _, fun _ => rfl⟩, ?_⟩).1
      rw [hsame.2.2.1]
      rw [← hreached]
      exact hin
    · rename_i hother
      refine h a.futureCheckpoint fun f hf => ?_
      obtain rfl : cut = f := Option.some.inj (hcut.symm.trans hf)
      exact ⟨by omega, hin⟩
  · rename_i hnone
    refine h a.futureCheckpoint fun f hf => ?_
    exact absurd (hnone.symm.trans hf) nofun

theorem valid_raw {sequence : Nat} {bytes : Bytes} (h : a.Valid) (hok : raw S sequence bytes a = .ok b) : b.Valid := by
  unfold raw at hok
  split at hok
  · cases hok
  · rename_i expected hnext
    split at hok
    · cases hok
    · rename_i hgood
      push Not at hgood
      obtain ⟨rfl, -⟩ := hgood
      split at hok
      · cases hok
      · obtain rfl := Except.ok.inj hok
        have hplace : a.place = sequence := by rw [place, hnext]; rfl
        have hpushed := @valid_push _ a ⟨sequence, bytes⟩ h hnext
        refine valid_reachCut rfl (fun f hf => ?_) hpushed
        obtain ⟨hlt, hin⟩ := h.future f hf
        exact ⟨by omega, hin⟩

/-- The stream starts anew, and every view with it. -/
theorem valid_start {checkpoint : κ} {cut : Nat} (h : a.Valid) (hnext : a.nextSequence = none)
    (hin : ⟨checkpoint, cut⟩ ∈ a.received) :
    (start S checkpoint cut a).Valid ∧ (start S checkpoint cut a).nextSequence = some cut ∧
      (start S checkpoint cut a).received = a.received := by
  have hfuture : ∀ f ∈ a.futureCheckpoint, cut < f.nextSequence ∧ f.toCheckpointCut ∈ a.received := by
    rw [(h.silent hnext).1]
    exact fun _ hf => nomatch hf
  have hempty : a.resyncing = false → ∀ (id : Nat) (v : RemoteView κ), a.subscribers[id]? ≠ some v := by
    intro hresyncing id v hv
    have hsome : id ∈ a.subscribers := Std.TreeMap.mem_iff_isSome_getElem?.mpr (by rw [hv]; rfl)
    rw [← Std.TreeMap.contains_iff_mem, Std.TreeMap.contains_of_isEmpty (h.resyncs hnext hresyncing)] at hsome
    cases hsome
  have hanew : ∃ b : RemoteActor κ, start S checkpoint cut a = b.geometry (S.size checkpoint) (S.cell checkpoint) cut ∧
      b.Valid ∧ b.nextSequence = some cut ∧ b.received = a.received := by
    refine ⟨_, rfl, ?_⟩
    by_cases hresyncing : a.resyncing = true
    · simp only [hresyncing, if_true]
      refine ⟨⟨rfl, fun _ => ⟨[], ?_⟩, fun _ r hr => absurd hr List.not_mem_nil, ?_, ?_, nofun, nofun, hfuture, h.given⟩,
        rfl, rfl⟩
      · exact (h.silent hnext).2.symm
      · intro id v' hv' hbehind
        obtain ⟨v, hv, rfl⟩ := views_each hv'
        exact RemoteView.snapshot_joined rfl hbehind
      · intro id v' hv'
        obtain ⟨v, hv, rfl⟩ := views_each hv'
        obtain ⟨hold, hwhole⟩ := h.checkpoints id v hv
        refine ⟨?_, RemoteView.snapshot_whole hwhole⟩
        rcases RemoteView.snapshot_checkpoint [] checkpoint cut v with heq | heq
        · rw [heq]
          exact hold
        · rw [heq]
          exact hin
    · simp only [hresyncing]
      have hno := hempty (by simpa using hresyncing)
      refine ⟨⟨rfl, fun _ => ⟨[], ?_⟩, fun _ r hr => absurd hr List.not_mem_nil, fun id v hv => absurd hv (hno id v),
        fun id v hv => absurd hv (hno id v), nofun, nofun, hfuture, h.given⟩, rfl, rfl⟩
      exact (h.silent hnext).2.symm
  obtain ⟨b, hstart, hvalid, hb, hreceived⟩ := hanew
  have hsame := geometry_same (S.size checkpoint) (S.cell checkpoint) cut b
  rw [hstart]
  exact ⟨valid_geometry hvalid hb, hsame.1.trans hb, hsame.2.2.1.trans hreceived⟩

theorem valid_received (h : a.Valid) (c : CheckpointCut κ) :
    Valid { a with captureRequested := false, received := a.received ++ [c] } where
  stream := h.stream
  recent := h.recent
  sizes := h.sizes
  views := h.views
  checkpoints id v hv := ⟨List.mem_append_left _ (h.checkpoints id v hv).1, (h.checkpoints id v hv).2⟩
  resyncs := h.resyncs
  silent := h.silent
  future f hf := ⟨(h.future f hf).1, List.mem_append_left _ (h.future f hf).2⟩
  given g hg := ⟨(h.given g hg).1, (h.given g hg).2.1, List.mem_append_left _ (h.given g hg).2.2⟩

theorem valid_checkpoint {c : κ} {cut : Nat} (h : a.Valid) (hok : checkpoint S c cut a = .ok b) : b.Valid := by
  have hreceived := valid_received h ⟨c, cut⟩
  have hin : ⟨c, cut⟩ ∈ a.received ++ [⟨c, cut⟩] := List.mem_append_right _ (List.mem_singleton_self _)
  unfold checkpoint at hok
  split at hok
  · cases hok
  · simp only at hok
    split at hok
    · rename_i hnext
      obtain rfl := Except.ok.inj hok
      obtain ⟨hstart, hnext', hreceived'⟩ := valid_start (S := S) hreceived hnext hin
      exact (valid_fulfill hstart ⟨⟨cut, hnext', Nat.le_refl _, fun _ => rfl⟩, hreceived' ▸ hin⟩).1
    · rename_i current hnext
      have hplace : a.place = current := by rw [place, hnext]; rfl
      split at hok
      · rename_i hlater
        split at hok
        · obtain rfl := Except.ok.inj hok
          refine ⟨hreceived.stream, hreceived.recent, hreceived.sizes, hreceived.views, hreceived.checkpoints,
            hreceived.resyncs, fun hnone => absurd (hnext.symm.trans hnone) nofun, fun f hf => ?_, hreceived.given⟩
          obtain rfl := Option.some.inj hf
          exact ⟨hplace.trans_lt hlater, hin⟩
        · obtain rfl := Except.ok.inj hok
          exact hreceived
      · rename_i hnot
        split at hok
        · rename_i heq
          obtain rfl := Except.ok.inj hok
          subst heq
          have hsame := geometry_same (S.size c) (S.cell c) cut
            { a with captureRequested := false, received := a.received ++ [⟨c, cut⟩] }
          refine (valid_fulfill (valid_geometry hreceived hnext)
            ⟨⟨cut, hsame.1.trans hnext, Nat.le_refl _, fun _ => rfl⟩, ?_⟩).1
          rw [hsame.2.2.1]
          exact hin
        · obtain rfl := Except.ok.inj hok
          refine (valid_fulfill hreceived ⟨⟨current, hnext, Nat.le_of_not_lt hnot, fun hseen => ?_⟩, hin⟩).1
          exact absurd hseen hnot

theorem valid_resize {rows cols atSequence : Nat} {cell : CellPixels} (h : a.Valid)
    (hok : a.resize rows cols cell atSequence = .ok b) : b.Valid := by
  unfold resize at hok
  split at hok
  · cases hok
  · rename_i hnext
    split at hok
    · cases hok
    · obtain rfl := Except.ok.inj hok
      exact valid_geometry h (not_not.mp hnext)

theorem valid_update {u : RemoteUpdate κ} (h : a.Valid) (hok : update S a u = .ok b) : b.Valid := by
  cases u with
  | raw sequence bytes => exact valid_raw h hok
  | checkpoint c cut => exact valid_checkpoint h hok
  | resize rows cols cell atSequence => exact valid_resize h hok
  | metadata =>
    obtain rfl := Except.ok.inj hok
    exact h
  | resync =>
    obtain rfl := Except.ok.inj hok
    exact valid_reset h
  | picture =>
    obtain rfl := Except.ok.inj hok
    exact h

/-! ### Turns of the actor -/

/-- What changes the queues of the views in no other way than to read from them keeps the rest. -/
theorem valid_views {subscribers : Std.TreeMap Nat (RemoteView κ)} (h : a.Valid)
    (hviews : ∀ (id : Nat) (v : RemoteView κ), subscribers[id]? = some v → ∃ v₀, a.subscribers[id]? = some v₀ ∧
      v₀.link.behind = v.link.behind ∧ v = { v₀ with link := v.link })
    (hempty : a.subscribers.isEmpty = true → subscribers.isEmpty = true) : Valid { a with subscribers } where
  stream := h.stream
  recent := h.recent
  sizes := h.sizes
  views id v hv hbehind := by
    obtain ⟨v₀, hv₀, hsame, heq⟩ := hviews id v hv
    rw [heq]
    exact h.views id v₀ hv₀ (hsame.trans hbehind)
  checkpoints id v hv := by
    obtain ⟨v₀, hv₀, -, heq⟩ := hviews id v hv
    rw [heq]
    exact h.checkpoints id v₀ hv₀
  resyncs hnone hresyncing := hempty (h.resyncs hnone hresyncing)
  silent := h.silent
  future := h.future
  given := h.given

theorem behind_takeData (l : Link κ) : l.takeData.2.behind = l.behind := by
  unfold Link.takeData
  split
  · split
    · rfl
    · split
      · split <;> rfl
      · rfl
  · split
    · rfl
    · split <;> rfl

theorem behind_turn (l : Link κ) : l.turn.2.behind = l.behind := by
  unfold Link.turn
  split
  · rfl
  · rfl
  · unfold Link.takeControl
    split
    · unfold Link.takeResize
      split <;> rfl
    · unfold Link.takeSnapshot
      split <;> rfl
    · rfl
    · split
      · exact behind_takeData l
      · rfl
    · exact behind_takeData l

theorem behind_turns : ∀ (n : Nat) (l : Link κ), (l.turns n).2.behind = l.behind
  | 0, _ => rfl
  | n + 1, l => by
    have hturn := behind_turn l
    unfold Link.turns
    split
    · rename_i hnext
      rw [hnext] at hturn
      exact hturn
    · rename_i l' hnext
      rw [hnext] at hturn
      exact (behind_turns n l').trans hturn

/-- A change of the link of one view that leaves it as far behind as it was. -/
theorem valid_link {id : Nat} {v : RemoteView κ} {link : Link κ} (h : a.Valid) (hv : a.subscribers[id]? = some v)
    (hbehind : link.behind = v.link.behind) :
    Valid { a with subscribers := a.subscribers.insert id { v with link } } := by
  refine valid_views h (fun id' v' hv' => ?_) fun hempty => ?_
  · rw [Std.TreeMap.getElem?_insert] at hv'
    split at hv'
    · rename_i hid
      obtain rfl := Option.some.inj hv'
      obtain rfl := Nat.compare_eq_eq.mp hid
      exact ⟨v, hv, hbehind.symm, rfl⟩
    · exact ⟨v', hv', rfl, rfl⟩
  · have hsome : id ∈ a.subscribers := Std.TreeMap.mem_iff_isSome_getElem?.mpr (by rw [hv]; rfl)
    rw [← Std.TreeMap.contains_iff_mem, Std.TreeMap.contains_of_isEmpty hempty] at hsome
    cases hsome

theorem valid_poll (h : a.Valid) (id : Nat) : (a.poll id).Valid := by
  unfold poll
  split
  · rename_i v hv
    exact valid_link h hv (behind_turns _ _)
  · exact h

theorem valid_refreshed (h : a.Valid) (id : Nat) (cut : CheckpointCut κ) : (a.refreshed id cut).Valid := by
  unfold refreshed
  split
  · rename_i v hv
    exact valid_link h hv rfl
  · exact h

theorem valid_close (h : a.Valid) (reason : String) : (a.close reason).Valid := by
  have hviews : Valid { a with subscribers := a.subscribers.map fun _ v =>
      { v with link := v.link.putClose reason a.place } } := by
    refine valid_views h (fun id v' hv' => ?_) fun hempty => ?_
    · rw [Std.TreeMap.getElem?_map, Option.map_eq_some_iff] at hv'
      obtain ⟨v, hv, rfl⟩ := hv'
      exact ⟨v, hv, rfl, rfl⟩
    · simpa using hempty
  exact ⟨hviews.stream, hviews.recent, hviews.sizes, hviews.views, hviews.checkpoints, hviews.resyncs, hviews.silent,
    hviews.future, hviews.given⟩

theorem valid_interrupt (h : a.Valid) (reason : String) : (a.interrupt reason).Valid := by
  unfold interrupt
  split
  · exact valid_close h reason
  · have hreset := valid_reset h
    exact ⟨hreset.stream, hreset.recent, hreset.sizes, hreset.views, hreset.checkpoints, hreset.resyncs, hreset.silent,
      hreset.future, hreset.given⟩

theorem valid_orInterrupt {r : Except String (RemoteActor κ)} (h : a.Valid) (hok : ∀ b, r = .ok b → b.Valid) :
    (a.orInterrupt r).Valid := by
  cases r with
  | error reason => exact valid_interrupt h reason
  | ok b => exact hok b rfl

theorem valid_link_state (h : a.Valid) (link : RemoteLink) (captureRequested : Bool) :
    Valid { a with link, captureRequested } :=
  ⟨h.stream, h.recent, h.sizes, h.views, h.checkpoints, h.resyncs, h.silent, h.future, h.given⟩

theorem valid_wake (h : a.Valid) : a.wake.Valid := by
  unfold wake
  split
  · exact valid_link_state h _ _
  · exact h

variable {asked : Bool}

theorem valid_requestCapture (h : a.Valid) (hok : a.requestCapture asked = .ok b) : b.Valid := by
  unfold requestCapture at hok
  split at hok
  · obtain rfl := Except.ok.inj hok
    exact h
  · split at hok
    · split at hok
      · obtain rfl := Except.ok.inj hok
        exact valid_link_state h _ _
      · cases hok
    · obtain rfl := Except.ok.inj hok
      exact h

theorem valid_addCapture {request : Nat} {connection : Option Nat} (h : a.Valid)
    (hok : a.addCapture request connection asked = .ok b) : b.Valid := by
  unfold addCapture at hok
  split at hok
  · obtain rfl := Except.ok.inj hok
    exact valid_reply h _ _
  · split at hok
    · obtain rfl := Except.ok.inj hok
      exact valid_reply h _ _
    · exact valid_requestCapture (valid_pending h _) hok

theorem valid_maintain {expired : List Nat} {due : Bool} (h : a.Valid) (hok : a.maintain expired due asked = .ok b) :
    b.Valid := by
  unfold maintain at hok
  refine valid_requestCapture ?_ hok
  split
  · exact ⟨h.stream, h.recent, h.sizes, h.views, h.checkpoints, h.resyncs, h.silent, h.future, h.given⟩
  · exact ⟨h.stream, h.recent, h.sizes, h.views, h.checkpoints, h.resyncs, h.silent, h.future, h.given⟩

theorem valid_unsubscribe (h : a.Valid) (id : Nat) : Valid { a with subscribers := a.subscribers.erase id } := by
  refine valid_views h (fun id' v hv => ?_) fun hempty => ?_
  · rw [Std.TreeMap.getElem?_erase] at hv
    split at hv
    · cases hv
    · exact ⟨v, hv, rfl, rfl⟩
  · rw [Std.TreeMap.isEmpty_erase, hempty]
    rfl

theorem valid_serve (h : a.Valid) (e : RemoteEvent κ) : (serve S a e).Valid := by
  cases e with
  | update u =>
    simp only [serve]
    split
    · exact valid_orInterrupt h fun b hok => valid_update h hok
    · exact h
  | failed reason => exact valid_interrupt h reason
  | stopped reason => exact valid_close h reason
  | reconnected same =>
    simp only [serve, resume]
    split
    · exact h
    · exact valid_link_state h _ _
  | paused =>
    simp only [serve, pause]
    split
    · exact valid_link_state (valid_reset h) _ _
    · exact h
  | wanted => exact valid_wake h
  | subscribe request asked =>
    exact valid_orInterrupt (valid_wake h) fun b hok => valid_addCapture (valid_wake h) hok
  | checkpoint request connection asked =>
    exact valid_orInterrupt (valid_wake h) fun b hok => valid_addCapture (valid_wake h) hok
  | abandon request => exact valid_pending h _
  | unsubscribe id => exact valid_unsubscribe h id
  | maintain expired due asked => exact valid_orInterrupt h fun b hok => valid_maintain h hok
  | poll id => exact valid_poll h id
  | refreshed id cut => exact valid_refreshed h id cut

theorem valid_next (h : a.Valid) (e : RemoteEvent κ) : (next S a e).Valid := by
  unfold next
  split
  · split
    · exact valid_poll h _
    · exact valid_refreshed h _ _
    · exact h
  · have hserve := valid_serve (S := S) h e
    simp only
    split
    · exact valid_close hserve _
    · exact hserve

theorem valid_new : (RemoteActor.new : RemoteActor κ).Valid where
  stream := rfl
  recent h := absurd rfl h
  sizes h := absurd rfl h
  views _ _ hv := nomatch hv
  checkpoints _ _ hv := nomatch hv
  resyncs _ _ := rfl
  silent _ := ⟨rfl, rfl⟩
  future _ hf := nomatch hf
  given _ hg := absurd hg List.not_mem_nil

theorem valid_run {es : List (RemoteEvent κ)} (hrun : Run (Step S) RemoteActor.new es a) : a.Valid :=
  hrun.invariant (fun {s e t} hvalid hstep => by
    obtain rfl : t = next S s e := hstep
    exact valid_next hvalid e) valid_new

/-! ### Joining -/

/-- In every run, a subscription has a checkpoint that the host sent, and from its cut on output and sizes without a
    gap: all of the stream unless it fell behind, with the output it was replayed first. Every size after the cut is
    among it. A checkpoint for a place that lies ahead is given at that place and no other. -/
theorem subscriptions_join {es : List (RemoteEvent κ)} (hrun : Run (Step S) RemoteActor.new es a) :
    (∀ (id : Nat) (v : RemoteView κ), a.subscribers[id]? = some v →
      (⟨v.checkpoint, v.cut⟩ ∈ a.received ∧ ∃ m, Follows v.cut v.put m) ∧
      (v.link.behind = false → Joined a.base a.place a.stream v ∧
        ∀ r, .resize r ∈ a.stream → v.cut < r.atSequence → .resize r ∈ v.put)) ∧
    ∀ g ∈ a.given, g.toCheckpointCut ∈ a.received ∧ g.nextSequence ≤ g.current ∧
      (g.seen < g.nextSequence → g.current = g.nextSequence) := by
  have hvalid := valid_run hrun
  refine ⟨fun id v hv => ⟨hvalid.checkpoints id v hv, fun hbehind => ?_⟩, fun g hg => ?_⟩
  · have hjoined := hvalid.views id v hv hbehind
    refine ⟨hjoined, fun r hr hafter => ?_⟩
    obtain ⟨before, replayed, later, hknown, hstream, hput, hstart, -, -⟩ := hjoined
    rw [hstream, hknown, List.append_assoc] at hr
    rcases List.mem_append.mp hr with hr | hr
    · have := (hstart.resize_range hr).2
      omega
    · exact hput ▸ hr
  · obtain ⟨hle, hseen, hin⟩ := hvalid.given g hg
    exact ⟨hin, hle, hseen⟩

/-- Each run has the state that its events lead to. -/
theorem run_next (es : List (RemoteEvent κ)) (a : RemoteActor κ) : Run (Step S) a es (es.foldl (next S) a) :=
  Run.foldl (next S) a es

end RemoteActor

/-- Checkpoints that are mere sizes. -/
def sizes : Screens Nat where
  size rows := ⟨rows, 80⟩
  cell _ := ⟨1, 1⟩
  validate _ := .ok ()

/-- A view joins at a checkpoint of a place that the stream has left, and gets the output from there on; then the
    terminal takes another size. -/
def late : List (RemoteEvent Nat) :=
  [.update (.checkpoint 24 0), .update (.raw 0 [65]), .subscribe 1 true, .update (.raw 1 [66]), .update (.raw 2 [67]),
    .update (.checkpoint 24 1), .update (.resize 30 80 ⟨1, 1⟩ 3), .update (.raw 3 [68])]

/-- The rule at such a view. -/
theorem subscriptions_join_late : ∃ v, (late.foldl (RemoteActor.next sizes) RemoteActor.new).subscribers[0]? = some v ∧
    v.put = [.data ⟨1, [66]⟩, .data ⟨2, [67]⟩, .resize ⟨30, 80, ⟨1, 1⟩, 3⟩, .data ⟨3, [68]⟩] ∧
    Follows 1 v.put 4 := by
  have hv : ((late.foldl (RemoteActor.next sizes) RemoteActor.new).subscribers[0]?).isSome := by decide
  obtain ⟨v, hv⟩ := Option.isSome_iff_exists.mp hv
  have hstate : ∀ v ∈ (late.foldl (RemoteActor.next sizes) RemoteActor.new).subscribers[0]?,
      v.link.behind = false ∧ v.cut = 1 ∧
      v.put = [.data ⟨1, [66]⟩, .data ⟨2, [67]⟩, .resize ⟨30, 80, ⟨1, 1⟩, 3⟩, .data ⟨3, [68]⟩] := by
    decide
  obtain ⟨hbehind, hcut, hput⟩ := hstate v hv
  have hjoin := (RemoteActor.subscriptions_join (RemoteActor.run_next late RemoteActor.new)).1 0 v hv
  obtain ⟨⟨-, -, -, -, -, -, -, hfollows, -⟩, -⟩ := hjoin.2 hbehind
  have hplace : (late.foldl (RemoteActor.next sizes) RemoteActor.new).place = 4 := by decide
  rw [hcut, hplace] at hfollows
  exact ⟨v, hv, hput, hfollows⟩

end Kodosi.Terminal
