import Kodosi.Lib.Run
import Kodosi.Terminal.Delivery

/-! Every view of a terminal gets its output in order: whatever the terminal sends and whenever a view
    reads, as long as the waiting resizes fit and the close finds room. -/

namespace Kodosi.Terminal
open Kodosi.Lib

variable {κ : Type}

/-! ### What a view must see -/

/-- Where a view stands after what a poll came to, if that was in order: data at its place, resizes at
    theirs, snapshots that are not older. An error is never in order. -/
def follow (n : Nat) : Polled κ → Option Nat
  | .pending => some n
  | .frame (.data f) => if f.sequence = n then some (n + 1) else none
  | .frame (.control (.resize r)) => if r.atSequence = n then some n else none
  | .frame (.control (.snapshot _ m)) => if n ≤ m then some m else none
  | .frame (.control (.closed _ _)) => some n
  | .ended => some n
  | .failed _ => none

/-- The place of the newest snapshot that a view got, or of its checkpoint. -/
def since (start : Nat) (got : List (Polled κ)) : Nat :=
  got.foldl (fun n p => match p with
    | .frame (.control (.snapshot _ m)) => m
    | _ => n) start

/-- The view got the close. -/
def Closed (got : List (Polled κ)) : Prop :=
  ∃ reason final, .frame (.control (.closed reason final)) ∈ got

/-- What a view and what it got keep. -/
structure View.Valid (output : List DataFrame) (T : Nat) (ended : Bool) (v : View κ) : Prop where
  link : v.link.Valid output T
  live : v.link.live = !ended
  order : v.got.foldlM follow v.start = some v.link.sub.nextSequence
  known : ∀ f, .frame (.data f) ∈ v.got → f ∈ output
  all : ∀ f ∈ output, since v.start v.got ≤ f.sequence → f.sequence < v.link.sub.nextSequence →
    .frame (.data f) ∈ v.got
  closes : ended → v.link.behind = false → v.link.Closes ∨ Closed v.got
  whole : v.link.behind = false → Closed v.got → v.link.sub.nextSequence = T
  final : v.link.behind = false → .ended ∈ v.got → Closed v.got
  silent : ended = false → ¬Closed v.got ∧ .ended ∉ v.got

structure Session.Valid (s : Session κ) : Prop where
  views : ∀ (id : Nat) (v : View κ), s.views[id]? = some v → v.Valid s.output s.sequence s.ended
  rising : s.output.Pairwise (·.sequence < ·.sequence)
  below : ∀ f ∈ s.output, f.sequence < s.sequence
  small : s.sequence < 2 ^ 64

/-- The waiting resizes of a view fit at each poll of it, and a close finds room in the control queue of
    every view that is not behind. -/
def Session.Fits (s : Session κ) : Event κ → Prop
  | .poll id => ∀ v ∈ s.views[id]?, v.link.Fits
  | .close _ => ∀ entry ∈ s.views.toList, entry.2.link.behind = false →
      entry.2.link.control.length < CONTROL_CAPACITY
  | _ => True

instance (s : Session κ) (e : Event κ) : Decidable (s.Fits e) :=
  match e with
  | .poll id => inferInstanceAs (Decidable (∀ v ∈ s.views[id]?, v.link.Fits))
  | .close _ => inferInstanceAs (Decidable (∀ entry ∈ s.views.toList, _))
  | .subscribe _ _ _ | .data _ | .resize _ _ _ | .resync _ _ | .refresh _ | .refreshed _ _ =>
    .isTrue trivial

/-! ### One step -/

variable {got : List (Polled κ)}

theorem follow_snoc {start n : Nat} (p : Polled κ) (h : got.foldlM follow start = some n) :
    (got ++ [p]).foldlM follow start = follow n p := by
  rw [List.foldlM_append, h]
  simp

theorem since_snoc (start : Nat) (got : List (Polled κ)) (p : Polled κ) : since start (got ++ [p]) = match p with
      | .frame (.control (.snapshot _ m)) => m
      | _ => since start got := by
  rw [since, List.foldl_append]
  rfl

/-- A frame is known by its place in the output. -/
theorem eq_of_sequence : ∀ {output : List DataFrame}, output.Pairwise (·.sequence < ·.sequence) →
    ∀ f ∈ output, ∀ g ∈ output, f.sequence = g.sequence → f = g
  | [], _, f, hf, _, _, _ => by simp at hf
  | a :: output, h, f, hf, g, hg, heq => by
    obtain ⟨ha, h⟩ := List.pairwise_cons.mp h
    rcases List.mem_cons.mp hf with rfl | hf'
    · rcases List.mem_cons.mp hg with rfl | hg
      · rfl
      · have := ha g hg
        omega
    · rcases List.mem_cons.mp hg with rfl | hg
      · have := ha f hf'
        omega
      · exact eq_of_sequence h f hf' g hg heq

namespace View.Valid

variable {output : List DataFrame} {T : Nat} {ended : Bool} {v : View κ}

variable {n n' : Nat} {l : Link κ} {p : Polled κ}

theorem le_poll (h : Outcome output T l n p n') : n ≤ n' := by
  cases h with
  | data => exact Nat.le_succ n
  | snapshot hn => exact hn
  | _ => exact Nat.le_refl n

variable {got : List (Polled κ)}

theorem order_poll {start : Nat} (h : Outcome output T l n p n') (horder : got.foldlM follow start = some n) :
    (got ++ [p]).foldlM follow start = some n' := by
  rw [follow_snoc p horder]
  cases h with
  | pending => rfl
  | data hknown hn => exact if_pos hn
  | resize hn => exact if_pos hn
  | snapshot hn => exact if_pos hn
  | closed => rfl
  | ended => rfl

theorem known_poll (h : Outcome output T l n p n') (hknown : ∀ f, .frame (.data f) ∈ got → f ∈ output) :
    ∀ f, .frame (.data f) ∈ got ++ [p] → f ∈ output := by
  intro f hf
  rcases List.mem_append.mp hf with hf | hf
  · exact hknown f hf
  · cases h with
    | data hk =>
      obtain rfl : _ = f := by simpa using (List.mem_singleton.mp hf).symm
      exact hk
    | _ => simp at hf

theorem all_poll {start : Nat} (h : Outcome output T l n p n') (hrising : output.Pairwise (·.sequence < ·.sequence))
    (hall : ∀ f ∈ output, since start got ≤ f.sequence → f.sequence < n → .frame (.data f) ∈ got) :
    ∀ f ∈ output, since start (got ++ [p]) ≤ f.sequence → f.sequence < n' → .frame (.data f) ∈ got ++ [p] := by
  intro f hf hsince hlt
  rw [since_snoc] at hsince
  cases h with
  | data hknown hn =>
    rcases Nat.lt_succ_iff_lt_or_eq.mp hlt with hlt | heq
    · exact List.mem_append_left _ (hall f hf hsince hlt)
    · obtain rfl := eq_of_sequence hrising f hf _ hknown (heq.trans hn.symm)
      simp
  | snapshot => exact absurd hlt (Nat.not_lt.mpr hsince)
  | _ => exact List.mem_append_left _ (hall f hf hsince hlt)

theorem poll (h : v.Valid output T ended) (hrising : output.Pairwise (·.sequence < ·.sequence))
    (hT : T < 2 ^ 64) (hfits : v.link.Fits) :
    View.Valid output T ended { v with link := v.link.recv.2, got := v.got ++ [v.link.recv.1] } := by
  have htook := h.link.took_recv hT hfits
  generalize v.link.recv.1 = p at htook
  generalize v.link.recv.2 = l at htook
  refine ⟨htook.valid, htook.live.trans h.live, order_poll htook.outcome h.order,
    known_poll htook.outcome h.known, all_poll htook.outcome hrising h.all, fun hended hb => ?_,
    fun hb hclosed => ?_, fun hb hend => ?_, fun hopen => ?_⟩
  · rcases h.closes hended (htook.behind ▸ hb) with hcloses | ⟨reason, final, hmem⟩
    · rcases htook.progress hcloses with ⟨reason, final, rfl⟩ | ⟨hcloses, -⟩
      · exact .inr ⟨reason, final, by simp⟩
      · exact .inl hcloses
    · exact .inr ⟨reason, final, List.mem_append_left _ hmem⟩
  · have hle := le_poll htook.outcome
    have hmost := htook.valid.next
    suffices v.link.sub.nextSequence = T by
      show l.sub.nextSequence = T
      omega
    obtain ⟨reason, final, hmem⟩ := hclosed
    rcases List.mem_append.mp hmem with hmem | hmem
    · exact h.whole (htook.behind ▸ hb) ⟨reason, final, hmem⟩
    · have houtcome := htook.outcome
      rw [← List.mem_singleton.mp hmem] at houtcome
      generalize v.link.sub.nextSequence = n, l.sub.nextSequence = n' at houtcome
      cases houtcome with
      | closed _ hwhole => exact hwhole (htook.behind ▸ hb)
  · rcases List.mem_append.mp hend with hend | hend
    · obtain ⟨reason, final, hmem⟩ := h.final (htook.behind ▸ hb) hend
      exact ⟨reason, final, List.mem_append_left _ hmem⟩
    · have houtcome := htook.outcome
      rw [← List.mem_singleton.mp hend] at houtcome
      generalize v.link.sub.nextSequence = n, l.sub.nextSequence = n' at houtcome
      cases houtcome with
      | ended hlive hcloses =>
        have hended : ended = true := by
          have := h.live
          rw [hlive] at this
          simpa using this.symm
        obtain ⟨reason, final, hmem⟩ :=
          (h.closes hended (htook.behind ▸ hb)).resolve_left hcloses
        exact ⟨reason, final, List.mem_append_left _ hmem⟩

  · have hlive : v.link.live = true := by
      rw [h.live, hopen]
      rfl
    obtain ⟨hclosed, hend⟩ := h.silent hopen
    have hp : (∀ reason final, p ≠ .frame (.control (.closed reason final))) ∧ p ≠ .ended := by
      have houtcome := htook.outcome
      generalize v.link.sub.nextSequence = n, l.sub.nextSequence = n' at houtcome
      cases houtcome with
      | closed hdead => simp [hlive] at hdead
      | ended hdead => simp [hlive] at hdead
      | _ => simp
    refine ⟨?_, ?_⟩
    · rintro ⟨reason, final, hmem⟩
      rcases List.mem_append.mp hmem with hmem | hmem
      · exact hclosed ⟨reason, final, hmem⟩
      · exact hp.1 reason final (List.mem_singleton.mp hmem).symm
    · intro hmem
      rcases List.mem_append.mp hmem with hmem | hmem
      · exact hend hmem
      · exact hp.2 (List.mem_singleton.mp hmem).symm

/-- The terminal, while it goes on, changes the queues of a view and what it puts out. -/
theorem change {output' : List DataFrame} {T' : Nat} (h : v.Valid output T false) (hvalid : l.Valid output' T')
    (hsub : l.sub = v.link.sub) (hlive : l.live = true) (houtput : output ⊆ output')
    (hnew : ∀ f ∈ output', f ∈ output ∨ T ≤ f.sequence) :
    View.Valid output' T' false { v with link := l } := by
  obtain ⟨hclosed, hend⟩ := h.silent rfl
  refine ⟨hvalid, hlive, ?_, fun f hf => houtput (h.known f hf), fun f hf hsince hlt => ?_,
    fun hended => by simp at hended, fun _ hc => absurd hc hclosed, fun _ he => absurd he hend,
    fun _ => ⟨hclosed, hend⟩⟩
  · show _ = some l.sub.nextSequence
    rw [hsub]
    exact h.order
  · rw [hsub] at hlt
    rcases hnew f hf with hold | hlate
    · exact h.all f hold hsince hlt
    · have := h.link.next
      omega

theorem close (h : v.Valid output T false) (reason : String)
    (hroom : v.link.behind = false → v.link.control.length < CONTROL_CAPACITY) :
    View.Valid output T true { v with link := v.link.putClose reason T } := by
  obtain ⟨hclosed, hend⟩ := h.silent rfl
  have hlive : v.link.live = true := h.live
  refine ⟨h.link.putClose hlive reason, rfl, h.order, h.known, h.all, fun _ hb => .inl ?_,
    fun _ hc => absurd hc hclosed, fun _ he => absurd he hend, fun hopen => by simp at hopen⟩
  have hmem : .closed reason T ∈ (v.link.putClose reason T).control := by
    simp [Link.putClose, hroom hb]
  exact .inr ⟨reason, T, hmem⟩

theorem refreshed {cut : CheckpointCut κ} (h : v.Valid output T ended)
    (hcut : v.link.sub.nextSequence ≤ cut.nextSequence) :
    View.Valid output T ended { v with link.sub := v.link.sub.refresh cut } := by
  obtain ⟨hnext, hplaced, hresizes, hsorted, hfew, -, hclosing, hdata, hknown⟩ := h.link
  refine ⟨⟨hnext, hplaced, hresizes, hsorted, hfew, ?_, hclosing, hdata, hknown⟩, h.live, h.order,
    h.known, h.all, h.closes, h.whole, h.final, h.silent⟩
  rintro cut' ⟨⟩
  exact hcut

end View.Valid

namespace Session.Valid

variable {s : Session κ}

variable {f : Link κ → Link κ} {id : Nat}

theorem views_each {v' : View κ} (hv : (s.each f).views[id]? = some v') : ∃ v, s.views[id]? = some v ∧
      v' = { v with link := if v.link.live then f v.link else v.link } := by
  rw [Session.each, Std.TreeMap.getElem?_map, Option.map_eq_some_iff] at hv
  obtain ⟨v, hv, rfl⟩ := hv
  exact ⟨v, hv, rfl⟩

/-- A change that the terminal makes to each of its views. -/
theorem each {output' : List DataFrame} {T' : Nat} (h : s.Valid) (hopen : s.ended = false)
    (hf : ∀ l : Link κ, l.Valid s.output s.sequence → l.live = true → (f l).Valid output' T') (hqueues : Link.Queues f)
    (houtput : s.output ⊆ output') (hnew : ∀ g ∈ output', g ∈ s.output ∨ s.sequence ≤ g.sequence) :
    ∀ (id : Nat) (v : View κ), (s.each f).views[id]? = some v → v.Valid output' T' s.ended := by
  intro id v' hv'
  obtain ⟨v, hv, rfl⟩ := views_each hv'
  have hvalid := h.views id v hv
  rw [hopen] at hvalid ⊢
  have hlive : v.link.live = true := hvalid.live
  obtain ⟨hsub, hlive'⟩ := hqueues v.link
  rw [if_pos hlive]
  exact hvalid.change (hf v.link hvalid.link hlive) hsub (hlive'.trans hlive) houtput hnew

theorem each_same (h : s.Valid) (hopen : s.ended = false)
    (hf : ∀ l : Link κ, l.Valid s.output s.sequence → l.live = true → (f l).Valid s.output s.sequence)
    (hqueues : Link.Queues f) : (s.each f).Valid :=
  ⟨h.each hopen hf hqueues (List.Subset.refl _) fun _ hg => .inl hg, h.rising, h.below, h.small⟩

/-- A change of one view leaves the others. -/
theorem insert {v : View κ} (h : s.Valid) (hv : v.Valid s.output s.sequence s.ended) :
    Session.Valid { s with views := s.views.insert id v } := by
  refine ⟨fun id' v' hv' => ?_, h.rising, h.below, h.small⟩
  rw [Std.TreeMap.getElem?_insert] at hv'
  by_cases hid : compare id id' = .eq
  · rw [if_pos hid] at hv'
    obtain rfl := Option.some.inj hv'
    exact hv
  · rw [if_neg hid] at hv'
    exact h.views id' v' hv'

theorem data (h : s.Valid) (hopen : s.ended = false) (hsmall : s.sequence + 1 < 2 ^ 64)
    (bytes : Bytes) : (s.step (.data bytes)).Valid := by
  refine ⟨h.each hopen (fun l hl hlive => hl.putData hlive bytes) (queues_putData _)
    (List.subset_append_left _ _) fun g hg => ?_, ?_, fun f hf => ?_, hsmall⟩
  · rcases List.mem_append.mp hg with hg | hg
    · exact .inl hg
    · obtain rfl := List.mem_singleton.mp hg
      exact .inr (Nat.le_refl _)
  · refine List.pairwise_append.mpr ⟨h.rising, List.pairwise_singleton _ _, fun a ha b hb => ?_⟩
    obtain rfl := List.mem_singleton.mp hb
    exact h.below a ha
  · rcases List.mem_append.mp hf with hf | hf
    · exact (h.below f hf).trans (Nat.lt_succ_self _)
    · obtain rfl := List.mem_singleton.mp hf
      exact Nat.lt_succ_self _

theorem resync {n : Nat} (h : s.Valid) (hopen : s.ended = false) (hn : s.sequence ≤ n)
    (hsmall : n < 2 ^ 64) (c : κ) : (s.step (.resync c n)).Valid :=
  ⟨h.each hopen (fun _ hl hlive => hl.deliver_snapshot hlive hn) (queues_putControl _)
    (List.Subset.refl _) (fun _ hg => .inl hg), h.rising,
    fun f hf => (h.below f hf).trans_le hn, hsmall⟩

theorem close (h : s.Valid) (hopen : s.ended = false) {reason : String}
    (hfits : s.Fits (.close reason)) : (s.step (.close reason)).Valid := by
  refine ⟨fun id v' hv' => ?_, h.rising, h.below, h.small⟩
  obtain ⟨v, hv, rfl⟩ := views_each hv'
  have hvalid := h.views id v hv
  rw [hopen] at hvalid
  have hlive : v.link.live = true := hvalid.live
  rw [if_pos hlive]
  exact hvalid.close reason (hfits (id, v) (Std.TreeMap.mem_toList_iff_getElem?_eq_some.mpr hv))

theorem subscribe {cut : Nat} {c : κ} (h : s.Valid) (hopen : s.ended = false)
    (hrange : (s.replayed cut).map (·.sequence) = List.range' cut (s.replayed cut).length)
    (hall : cut + (s.replayed cut).length = s.sequence) : (s.subscribe id c cut).Valid := by
  rw [Session.subscribe]
  split
  · exact h
  have hdata : Leads cut (s.replayed cut) s.sequence := hall ▸ Leads.range hrange
  have hlink : Link.Valid s.output s.sequence
      ⟨s.replayed cut, [], false, true, ⟨c, cut, [], none, none⟩⟩ :=
    ⟨hdata.le, trivial, by simp, .nil, by simp [MAX_PENDING_RESIZES], by simp, by simp,
      ⟨s.sequence, hdata, Nat.le_refl _, fun _ => rfl⟩, fun f hf => (List.mem_filter.mp hf).1⟩
  refine h.insert ⟨hlink, by rw [hopen]; rfl, rfl, by simp, fun f _ hsince hlt => ?_,
    fun hended => by simp [hopen] at hended, fun _ hc => ?_, by simp, fun _ => ⟨?_, by simp⟩⟩
  · exact absurd hlt (Nat.not_lt.mpr hsince)
  · obtain ⟨_, _, hmem⟩ := hc
    simp at hmem
  · rintro ⟨_, _, hmem⟩
    simp at hmem

/-- Every step that its callers may make, and that fits, keeps every view in order. -/
theorem step {e : Event κ} (h : s.Valid) (hallowed : s.Allowed e) (hfits : s.Fits e) : (s.step e).Valid := by
  cases e with
  | subscribe id c cut =>
    obtain ⟨hopen, -, hrange, hall⟩ := hallowed
    exact h.subscribe hopen hrange hall
  | data bytes => exact h.data hallowed.1 hallowed.2 bytes
  | resize rows cols cell =>
    exact h.each_same hallowed (fun l hl hlive => hl.putResize hlive rfl) (queues_putControl _)
  | resync c n => exact h.resync hallowed.1 hallowed.2.1 hallowed.2.2 c
  | refresh c =>
    exact h.each_same hallowed (fun l hl hlive => hl.putRefresh hlive c) (queues_putRefresh c _)
  | close reason => exact h.close hallowed hfits
  | poll id =>
    simp only [Session.step, Session.poll]
    split
    · rename_i v hv
      exact h.insert ((h.views id v hv).poll h.rising h.small (hfits v hv))
    · exact h
  | refreshed id cut =>
    simp only [Session.step, Session.refreshed]
    split
    · rename_i v hv
      exact h.insert ((h.views id v hv).refreshed (hallowed v hv).2)
    · exact h

end Session.Valid

/-! ### Runs -/

/-- A terminal before its first view. -/
def Session.start (n : Nat) : Session κ := ⟨n, [], false, ∅⟩

def Session.Next (s : Session κ) (e : Event κ) (t : Session κ) : Prop := s.Allowed e ∧ t = s.step e

theorem Session.Valid.start {n : Nat} (hn : n < 2 ^ 64) : (Session.start n : Session κ).Valid :=
  ⟨fun id v hv => by simp [Session.start] at hv, .nil, fun f hf => by simp [Session.start] at hf, hn⟩

variable {s : Session κ}

variable {es : List (Event κ)}

theorem Session.Valid.run {t : Session κ} (h : s.Valid) (hrun : Run (Guarded Session.Fits Session.Next) s es t) :
    t.Valid :=
  hrun.invariant (fun hs ⟨hfits, hallowed, heq⟩ => heq ▸ hs.step hallowed hfits) h

theorem poll_views {id : Nat} {v : View κ} (hv : s.views[id]? = some v) :
    (s.step (.poll id)).views[id]? = some { v with link := v.link.recv.2, got := v.got ++ [v.link.recv.1] } ∧
      (s.step (.poll id)).sequence = s.sequence := by
  simp only [Session.step, Session.poll, hv, and_true]
  exact Std.TreeMap.getElem?_insert_self

/-- With every poll of a view that is to be closed, less is left before the close. -/
theorem polls_close {id : Nat} {v : View κ} (h : s.Valid) (hv : s.views[id]? = some v)
    (hcloses : v.link.Closes ∨ Closed v.got) :
    ∀ (k : Nat) (t : Session κ),
      Run (Guarded Session.Fits Session.Next) s (List.replicate k (.poll id)) t →
      t.sequence = s.sequence ∧ ∃ v', t.views[id]? = some v' ∧
        (Closed v'.got ∨ v'.link.Closes ∧ v'.link.left s.sequence + k ≤ v.link.left s.sequence)
  | 0, t, hrun => by
    obtain rfl := Run.nil_iff.mp hrun
    exact ⟨rfl, v, hv, hcloses.symm.imp_right fun hc => ⟨hc, Nat.le_refl _⟩⟩
  | k + 1, t, hrun => by
    rw [List.replicate_succ', Run.snoc_iff] at hrun
    obtain ⟨u, hrun, hfits, -, rfl⟩ := hrun
    obtain ⟨hsequence, v', hv', hleft⟩ := polls_close h hv hcloses k u hrun
    obtain ⟨hviews, hsame⟩ := poll_views hv'
    have hu := h.run hrun
    have htook := (hu.views id v' hv').link.took_recv hu.small (hfits v' hv')
    rw [hsequence] at htook
    refine ⟨hsame.trans hsequence, _, hviews, ?_⟩
    rcases hleft with ⟨reason, final, hmem⟩ | ⟨hcloses', hleft⟩
    · exact .inl ⟨reason, final, List.mem_append_left _ hmem⟩
    · rcases htook.progress hcloses' with ⟨reason, final, hp⟩ | ⟨hnext, hless⟩
      · exact .inl ⟨reason, final, by rw [hp]; simp⟩
      · refine .inr ⟨hnext, ?_⟩
        show v'.link.recv.2.left s.sequence + (k + 1) ≤ _
        omega

theorem no_failure {start n : Nat} (reason : String) (h : got.foldlM follow start = some n) : .failed reason ∉ got := by
  induction got generalizing start with
  | nil => simp
  | cons p got ih =>
    rw [List.foldlM_cons] at h
    obtain ⟨m, hp, h⟩ := Option.bind_eq_some_iff.mp h
    rw [List.mem_cons, not_or]
    exact ⟨fun heq => by rw [← heq] at hp; simp [follow] at hp, ih h⟩

/-- Every view gets its output in order. What it got are output, resizes and snapshots, each at its place,
    and never an error; since its newest snapshot it missed no output. A view that was not behind when
    the terminal closed gets all output up to the last, and then the close. -/
theorem views_in_order {n : Nat} {s : Session κ} {es : List (Event κ)} (hn : n < 2 ^ 64)
    (hrun : Run (Guarded Session.Fits Session.Next) (Session.start n) es s) (id : Nat) (v : View κ)
    (hv : s.views[id]? = some v) :
    ((∃ m, v.got.foldlM follow v.start = some m) ∧ ∀ reason, .failed reason ∉ v.got) ∧
    ((∀ f, .frame (.data f) ∈ v.got → f ∈ s.output) ∧
      ∀ f ∈ s.output, since v.start v.got ≤ f.sequence → f.sequence < v.link.sub.nextSequence →
        .frame (.data f) ∈ v.got) ∧
    (s.ended = true → v.link.behind = false →
      (.ended ∈ v.got → Closed v.got) ∧
      (Closed v.got → v.link.sub.nextSequence = s.sequence) ∧
      ∃ k, ∀ t, Run (Guarded Session.Fits Session.Next) s (List.replicate k (.poll id)) t →
        ∃ v', t.views[id]? = some v' ∧ Closed v'.got) := by
  have hs : s.Valid := (Session.Valid.start hn).run hrun
  have hvalid := hs.views id v hv
  refine ⟨⟨⟨_, hvalid.order⟩, fun reason => no_failure reason hvalid.order⟩,
    ⟨hvalid.known, hvalid.all⟩, fun hended hbehind => ⟨hvalid.final hbehind,
      hvalid.whole hbehind, v.link.left s.sequence + 1, fun t hpolls => ?_⟩⟩
  obtain ⟨-, v', hv', hclosed | ⟨-, hleft⟩⟩ :=
    polls_close hs hv (hvalid.closes hended hbehind) _ t hpolls
  · exact ⟨v', hv', hclosed⟩
  · omega

/-- Steps that are allowed, one after the other, are a run. -/
theorem run_next (h : Run.Allows Session.Allowed Session.step s es) : Run Session.Next s es (es.foldl Session.step s) :=
  Run.of_allows h

/-- Steps that are allowed and fit are such a run. -/
theorem run_fits (h : Run.Allows (fun s e => s.Fits e ∧ s.Allowed e) Session.step s es) :
    Run (Guarded Session.Fits Session.Next) s es (es.foldl Session.step s) :=
  (Run.of_allows h).mono fun _ _ _ ⟨⟨hfits, hallowed⟩, heq⟩ => ⟨hfits, hallowed, heq⟩

/-- A view that reads one frame of output, a resize and the close. -/
def short : List (Event Unit) :=
  [.subscribe 1 () 0, .data [65], .resize 4 10 ⟨1, 1⟩, .close "ended", .poll 1, .poll 1, .poll 1]

/-- The rule at such a view. -/
theorem views_in_order_short : ∃ v : View Unit,
    (short.foldl Session.step (Session.start 0)).views[1]? = some v ∧
    .frame (.data ⟨0, [65]⟩) ∈ v.got ∧ v.link.sub.nextSequence = 1 := by
  have hv : ((short.foldl Session.step (Session.start 0)).views[1]?).isSome := by decide
  obtain ⟨v, hv⟩ := Option.isSome_iff_exists.mp hv
  have hrun : Run (Guarded Session.Fits Session.Next) (Session.start 0) short
      (short.foldl Session.step (Session.start 0)) := run_fits (by decide)
  obtain ⟨-, ⟨-, hall⟩, hclose⟩ := views_in_order (by decide) hrun 1 v hv
  have hstate : ∀ v ∈ (short.foldl Session.step (Session.start 0)).views[1]?,
      v.link.behind = false ∧ since v.start v.got = 0 ∧ (.frame (.control (.closed "ended" 1))) ∈ v.got := by
    decide
  obtain ⟨hbehind, hsince, hclosed⟩ := hstate v hv
  have hnext := (hclose (by decide) hbehind).2.1 ⟨_, _, hclosed⟩
  have hsequence : (short.foldl Session.step (Session.start 0)).sequence = 1 := by decide
  rw [hsequence] at hnext
  refine ⟨v, hv, hall ⟨0, [65]⟩ (by decide) ?_ ?_, hnext⟩
  · rw [hsince]
  · rw [hnext]
    exact Nat.zero_lt_one

/-- Resizes that come faster than a view reads its output. -/
def crowded : List (Event Unit) :=
  [.subscribe 1 () 0, .data [65], .data [66], .data [67]] ++
    List.replicate 16 (.resize 4 10 ⟨1, 1⟩) ++ [.poll 1] ++
    List.replicate 16 (.resize 4 10 ⟨1, 1⟩) ++ [.poll 1, .resize 4 10 ⟨1, 1⟩, .poll 1]

/-- A close that comes when resizes fill the control queue. -/
def crammed : List (Event Unit) :=
  [.subscribe 1 () 0, .data [65]] ++ List.replicate 16 (.resize 4 10 ⟨1, 1⟩) ++
    [.close "ended", .poll 1]

/-- A view that was never behind, and fails; and one that ends without its output and its close. -/
theorem views_out_of_order :
    (Run Session.Next (Session.start 0) crowded (crowded.foldl Session.step (Session.start 0)) ∧
      (∀ es ∈ crowded.inits, ∀ v ∈ (es.foldl Session.step (Session.start 0)).views[1]?,
        v.link.behind = false) ∧
      ∃ v, (crowded.foldl Session.step (Session.start 0)).views[1]? = some v ∧
        .failed "terminal resize queue exceeded its ordering bound" ∈ v.got) ∧
    (Run Session.Next (Session.start 0) crammed (crammed.foldl Session.step (Session.start 0)) ∧
      (∀ es ∈ crammed.inits, ∀ v ∈ (es.foldl Session.step (Session.start 0)).views[1]?,
        v.link.behind = false) ∧
      (crammed.foldl Session.step (Session.start 0)).output = [⟨0, [65]⟩] ∧
      ∃ v, (crammed.foldl Session.step (Session.start 0)).views[1]? = some v ∧ v.got = [.ended]) := by
  have hcrowded : ((crowded.foldl Session.step (Session.start 0)).views[1]?).any fun v =>
      .failed "terminal resize queue exceeded its ordering bound" ∈ v.got := by decide
  have hcrammed : ((crammed.foldl Session.step (Session.start 0)).views[1]?).any fun v =>
      v.got = [.ended] := by decide
  obtain ⟨v, hv, hfailed⟩ := (Option.any_eq_true _ _).mp hcrowded
  obtain ⟨w, hw, hended⟩ := (Option.any_eq_true _ _).mp hcrammed
  exact ⟨⟨run_next (by decide), by decide, v, hv, of_decide_eq_true hfailed⟩,
    run_next (by decide), by decide, by decide, w, hw,
    of_decide_eq_true hended⟩

end Kodosi.Terminal
