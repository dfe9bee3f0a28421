import Kodosi.Documents.Refines

/-! A document with its views, over any run. A view remembers an epoch, a rev and a copy. It joins with
    them through a pipe of its own, takes the answer, and follows the changes. The link between them
    keeps the order of frames, and may be lost at any moment with all that is still on it. -/

namespace Kodosi.Documents
open Kodosi.Lib

variable {M C Q : Type} {F : Format M C Q} {W : Wire} {V : ViewFormat M}

/-- What a view keeps when its link is lost. `answered` says, for the proofs, whether this document has
    answered the view before. -/
structure Memory (M : Type) where
  epoch : Nat
  rev : Nat
  copy : Option M
  answered : Bool

namespace Memory

/-- The copy after the changes that a view missed, in order. -/
def catchUp (V : ViewFormat M) (copy : Option M) (changes : List Changed) : Option M :=
  changes.foldl (fun copy changed => copy.bind (V.apply · changed.body)) copy

/-- A view takes a message of its document. -/
def hear (V : ViewFormat M) (v : Memory M) : ToClient → Memory M
  | .joined _ _ _ epoch rev _ _ (.snapshot snapshot) => ⟨epoch, rev, V.load snapshot, true⟩
  | .joined _ _ _ epoch rev _ _ (.missed changes) => ⟨epoch, rev, catchUp V v.copy changes, true⟩
  | .changed changed =>
    { v with rev := changed.rev, copy := v.copy.bind (V.apply · changed.body) }
  | _ => v

def receive (V : ViewFormat M) (v : Memory M) : Frame ToClient → Memory M
  | .message m => v.hear V m
  | .asset _ _ => v

/-- Every memory on the way through these frames, the first one and the last one with it. -/
def Along (V : ViewFormat M) (P : Memory M → Prop) : Memory M → List (Frame ToClient) → Prop
  | v, [] => P v
  | v, f :: fs => P v ∧ Along V P (v.receive V f) fs

variable {P : Memory M → Prop}

theorem along_append : ∀ {fs gs : List (Frame ToClient)} {v : Memory M},
    Along V P v (fs ++ gs) ↔ Along V P v fs ∧ Along V P (fs.foldl (receive V) v) gs
  | [], [], v => by simp [Along]
  | [], g :: gs, v => by
    rw [List.nil_append, Along, Along, List.foldl_nil, Along]
    exact ⟨fun h => ⟨h.1, h⟩, fun h => h.2⟩
  | f :: fs, gs, v => by
    rw [List.cons_append, Along, Along, along_append, List.foldl_cons, and_assoc]

/-- What every frame keeps holds of every memory on the way. -/
theorem Along.imp {P' I : Memory M → Prop} (hkeep : ∀ v f, I v → I (v.receive V f)) (hle : ∀ v, P v → I v → P' v) :
    ∀ {fs : List (Frame ToClient)} {v : Memory M}, Along V P v fs → I v → Along V P' v fs
  | [], _, h, hi => hle _ h hi
  | f :: _, v, h, hi => ⟨hle _ h.1 hi, Along.imp hkeep hle h.2 (hkeep v f hi)⟩

theorem Along.mono {P' : Memory M → Prop} (hle : ∀ v, P v → P' v) {fs : List (Frame ToClient)} {v : Memory M}
    (h : Along V P v fs) : Along V P' v fs :=
  Along.imp (fun _ _ (_ : True) => trivial) (fun v hv _ => hle v hv) h trivial

theorem Along.last : ∀ {fs : List (Frame ToClient)} {v : Memory M}, Along V P v fs → P (fs.foldl (receive V) v)
  | [], _, h => h
  | _ :: _, _, ⟨_, h⟩ => by
    have := Along.last h
    exact this

theorem Along.head {fs : List (Frame ToClient)} {v : Memory M} (h : Along V P v fs) : P v := by
  cases fs with
  | nil => exact h
  | cons => exact h.1

theorem receive_none (v : Memory M) {f : Frame ToClient} (hf : f.news = none) : v.receive V f = v := by
  cases f with
  | asset => rfl
  | message m => cases m <;> simp_all [Frame.news, receive, hear]

theorem receive_some (v : Memory M) {f : Frame ToClient} {m : ToClient} (hf : f.news = some m) :
    v.receive V f = v.hear V m := by
  cases f with
  | asset => simp [Frame.news] at hf
  | message m' => cases m' <;> simp_all [Frame.news, receive]

/-- Only states and changes move a memory. -/
theorem foldl_receive (v : Memory M) (fs : List (Frame ToClient)) :
    fs.foldl (receive V) v = (fs.filterMap Frame.news).foldl (hear V) v := by
  induction fs generalizing v with
  | nil => rfl
  | cons f fs ih =>
    cases hf : f.news with
    | none => rw [List.foldl_cons, receive_none v hf, ih, List.filterMap_cons_none hf]
    | some m => rw [List.foldl_cons, receive_some v hf, ih, List.filterMap_cons_some hf, List.foldl_cons]

theorem along_quiet : ∀ {fs : List (Frame ToClient)} {v : Memory M}, P v → fs.filterMap Frame.news = [] → Along V P v fs
  | [], _, hv, _ => hv
  | f :: fs, v, hv, h => by
    have hnone : f.news = none := List.filterMap_eq_nil_iff.mp h f List.mem_cons_self
    rw [List.filterMap_cons_none hnone] at h
    refine ⟨hv, ?_⟩
    rw [receive_none v hnone]
    exact along_quiet hv h

/-- Along frames with these news a memory only goes where the news lead it. -/
theorem along_news : ∀ {fs : List (Frame ToClient)} {v : Memory M},
    (∀ ms, ms <+: fs.filterMap Frame.news → P (ms.foldl (hear V) v)) → Along V P v fs
  | [], _, h => h [] List.nil_prefix
  | f :: fs, v, h => by
    refine ⟨h [] List.nil_prefix, ?_⟩
    cases hf : f.news with
    | none =>
      rw [List.filterMap_cons_none hf] at h
      rw [receive_none v hf]
      exact along_news h
    | some m =>
      rw [List.filterMap_cons_some hf] at h
      rw [receive_some v hf]
      exact along_news fun ms hms => h (m :: ms) (List.cons_prefix_cons.mpr ⟨rfl, hms⟩)

end Memory

/-! ### The models that the order went through -/

/-- The model that the document opened with, and the model just after each commit. -/
def models (m₀ : M) (trail : List (Commit M C)) : List M := m₀ :: trail.map (·.model)

/-- An order with the commits that led to it: its rev counts them, its log is what came after its first
    rev, and the body of each commit leads from the model before it to the model after it. -/
structure Track (F : Format M C Q) (V : ViewFormat M) (m₀ : M) (trail : List (Commit M C))
    (k : Core M C) : Prop where
  rev : k.rev = trail.length
  first : k.firstRev ≤ trail.length
  log : k.log = (trail.drop k.firstRev).map (·.entry)
  model : (models m₀ trail)[k.rev]? = some k.model
  chain : ∀ (i : Nat) (c : Commit M C) (m : M), trail[i]? = some c → (models m₀ trail)[i]? = some m →
    V.apply m (F.toValue c.entry.change) = some c.model

theorem models_append (m₀ : M) (trail cs : List (Commit M C)) :
    models m₀ (trail ++ cs) = models m₀ trail ++ cs.map (·.model) := by
  simp [models]

theorem length_models (m₀ : M) (trail : List (Commit M C)) : (models m₀ trail).length = trail.length + 1 := by
  simp [models]

variable {m₀ : M} {trail : List (Commit M C)}

theorem getElem?_models_append {r : Nat} {m : M} (h : (models m₀ trail)[r]? = some m) (cs : List (Commit M C)) :
    (models m₀ (trail ++ cs))[r]? = some m := by
  rw [models_append]
  rw [List.getElem?_append_left (List.getElem?_eq_some_iff.mp h).1]
  exact h

theorem Track.put {k k' : Core M C} {c : Commit M C} (hV : V.Follows F) (hk : Track F V m₀ trail k)
    (hput : Core.Put F k c k') :
    Track F V m₀ (trail ++ [c]) k' := by
  obtain ⟨⟨⟨change, since, a, a', happly⟩, hrev, -⟩, rfl⟩ := hput
  have hmodels : (models m₀ (trail ++ [c]))[trail.length + 1]? = some c.model := by
    rw [models_append, List.getElem?_append_right (by rw [length_models]), length_models]
    simp
  refine ⟨?_, ?_, ?_, ?_, ?_⟩
  · rw [List.length_append, ← hk.rev]
    exact hrev
  · rw [List.length_append]
    exact le_trans hk.first (by omega)
  · show k.log ++ [c.entry] = ((trail ++ [c]).drop k.firstRev).map (·.entry)
    rw [List.drop_append_of_le_length hk.first, List.map_append, hk.log]
    rfl
  · show (models m₀ (trail ++ [c]))[c.entry.rev]? = some c.model
    rw [hrev, hk.rev]
    exact hmodels
  · intro i c' m hc hm
    rcases Nat.lt_or_ge i trail.length with hlt | hge
    · rw [List.getElem?_append_left hlt] at hc
      rw [models_append, List.getElem?_append_left (by rw [length_models]; omega)] at hm
      exact hk.chain i c' m hc hm
    · -- the new commit comes after the model of the order
      rw [List.getElem?_append_right hge, List.getElem?_singleton] at hc
      split at hc
      · obtain rfl := Option.some.inj hc
        have hi : i = k.rev := by rw [hk.rev]; omega
        rw [hi, getElem?_models_append hk.model [c]] at hm
        obtain rfl := Option.some.inj hm
        exact hV.apply _ _ _ _ _ _ _ happly
      · simp at hc

theorem Track.puts {cs : List (Commit M C)} {k k' : Core M C} (hV : V.Follows F) (hrun : Run (Core.Put F) k cs k')
    (hk : Track F V m₀ trail k) :
    Track F V m₀ (trail ++ cs) k' := by
  induction hrun with
  | nil => simpa using hk
  | snoc _ hnext ih =>
    rw [← List.append_assoc]
    exact ih.put hV hnext

/-- The bodies after a rev lead from the model at this rev to the model of the order. -/
theorem Track.catchUp {k : Core M C} (hk : Track F V m₀ trail k) :
    ∀ n r m, r + n = trail.length → (models m₀ trail)[r]? = some m →
    Memory.catchUp V (some m) ((trail.drop r).map (changedOf F ·.entry)) = some k.model
  | 0, r, m, hr, hm => by
    have hr' : r = k.rev := by rw [hk.rev]; omega
    rw [hr', hk.model] at hm
    rw [List.drop_of_length_le (by omega), List.map_nil]
    exact hm.symm
  | n + 1, r, m, hr, hm => by
    have hlt : r < trail.length := by omega
    have hnext : (models m₀ trail)[r + 1]? = some trail[r].model := by
      simp [models, List.getElem?_eq_getElem hlt]
    have hstep := hk.chain r _ m (List.getElem?_eq_getElem hlt) hm
    have hrest := hk.catchUp n (r + 1) _ (by omega) hnext
    rw [List.drop_eq_getElem_cons hlt, List.map_cons, Memory.catchUp, List.foldl_cons]
    show List.foldl _ (V.apply m (F.toValue trail[r].entry.change)) _ = _
    rw [hstep]
    exact hrest

/-! ### The document and its views -/

/-- The link of a view: its pipe, what its join asks from, and the frames that are on the way. -/
structure Link where
  pipe : Nat
  asked : Nat × Nat
  inbox : List (Frame ToClient)

structure View (M : Type) where
  memory : Memory M
  link : Option Link

/-- The frames of these effects go on the link. -/
def View.take (v : View M) (effects : List Effect) : View M :=
  { v with link := v.link.map fun l => { l with inbox := l.inbox ++ heard l.pipe effects } }

/-- A document with views that follow the protocol. Any other pipe may say anything. For the proofs, the
    world keeps the commits of the order and the epochs that the document had. -/
structure World (ι M C : Type) where
  doc : Document M C
  views : ι → View M
  trail : List (Commit M C)
  epochs : List Nat

inductive Happens (ι : Type) where
  | input (i : Input)
  | connect (v : ι) (pipe : Nat) (viewer : Viewer)
  | deliver (v : ι)
  | lose (v : ι)

namespace World

variable {ι : Type}

/-- The host gives each pipe its own number and each rebase a fresh epoch, and a view asks from what it
    remembers. -/
def Allows (W : Wire) (w : World ι M C) : Input → Prop
  | .connected pipe _ => ∀ v l, (w.views v).link = some l → l.pipe ≠ pipe
  | .message pipe frame => ∀ v l contract client epoch rev, (w.views v).link = some l →
      l.pipe = pipe → decode W frame = some (.message (.join contract client epoch rev)) →
      l.asked = (epoch, rev)
  | .rebased _ epoch => ∀ v, (w.views v).memory.epoch ≠ epoch
  | _ => True

/-- The epochs that a document had, after one more input. -/
def epochsAfter (epochs : List Nat) : Input → List Nat
  | .rebased _ epoch => epoch :: epochs
  | _ => epochs

/-- One input of the document: each view gets on its link what the document sends to its pipe. -/
def input (F : Format M C Q) (W : Wire) (w : World ι M C) (i : Input) : World ι M C :=
  let out := w.doc.step F W i
  { doc := out.1
    views := fun v => (w.views v).take out.2
    trail := w.trail ++ commits (w.doc.acts F W i)
    epochs := epochsAfter w.epochs i }

variable [DecidableEq ι]

def setView (w : World ι M C) (v : ι) (view : View M) : World ι M C :=
  { w with views := Function.update w.views v view }

/-- A view opens a pipe of its own. Its join is on the way from now on. -/
def connect (F : Format M C Q) (W : Wire) (w : World ι M C) (v : ι) (pipe : Nat) (viewer : Viewer) :
    World ι M C :=
  let memory := (w.views v).memory
  { w with doc := (w.doc.step F W (.connected pipe viewer)).1 }.setView v
    ⟨memory, some ⟨pipe, (memory.epoch, memory.rev), []⟩⟩

inductive Next (F : Format M C Q) (W : Wire) (V : ViewFormat M) (w : World ι M C) :
    Happens ι → World ι M C → Prop
  | input {i : Input} (allows : w.Allows W i) : Next F W V w (.input i) (w.input F W i)
  | connect {v : ι} {pipe : Nat} {viewer : Viewer}
      (free : ∀ u l, u ≠ v → (w.views u).link = some l → l.pipe ≠ pipe) :
      Next F W V w (.connect v pipe viewer) (w.connect F W v pipe viewer)
  /-- A view takes the next frame of its link. -/
  | deliver {v : ι} {l : Link} {f : Frame ToClient} {rest : List (Frame ToClient)}
      (link : (w.views v).link = some l) (inbox : l.inbox = f :: rest) :
      Next F W V w (.deliver v)
        (w.setView v ⟨(w.views v).memory.receive V f, some { l with inbox := rest }⟩)
  /-- A link is lost, with the frames on it. -/
  | lose {v : ι} : Next F W V w (.lose v) (w.setView v ⟨(w.views v).memory, none⟩)

end World

/-! ### The invariant -/

/-- A memory that this document answered holds the model that its order had at the rev. Any other one is
    of another document's epoch, or of no rev at all. -/
structure Sound (m₀ : M) (trail : List (Commit M C)) (epochs : List Nat) (v : Memory M) : Prop where
  known : v.answered = true → ∃ m, (models m₀ trail)[v.rev]? = some m ∧ v.copy = some m
  foreign : v.answered = false → v.rev = 0 ∨ v.epoch ∉ epochs

/-- A view on its link. While its pipe waits for the join, nothing of the order is on the way; once it
    joined, what is on the way leads to the document as it is now. -/
structure Linked (V : ViewFormat M) (m₀ : M) (trail : List (Commit M C)) (epochs : List Nat)
    (d : Document M C) (v : Memory M) (l : Link) : Prop where
  along : Memory.Along V (Sound m₀ trail epochs) v l.inbox
  waits : d.seatAt l.pipe = some false →
    l.inbox.filterMap Frame.news = [] ∧ l.asked = (v.epoch, v.rev)
  joined : d.seatAt l.pipe = some true → ∀ v', v' = l.inbox.foldl (Memory.receive V) v →
    v'.answered = true ∧ v'.rev = d.rev ∧ v'.copy = some d.model

variable {epochs : List Nat} {v : Memory M}

theorem Sound.grow (h : Sound m₀ trail epochs v) (cs : List (Commit M C)) : Sound m₀ (trail ++ cs) epochs v := by
  refine ⟨fun ha => ?_, h.foreign⟩
  obtain ⟨m, hm, hcopy⟩ := h.known ha
  exact ⟨m, getElem?_models_append hm cs, hcopy⟩

/-- A fresh epoch is not one that a view of another document remembers. -/
theorem Sound.after (h : Sound m₀ trail epochs v) (cs : List (Commit M C)) (i : Input)
    (hfresh : ∀ file epoch, i = .rebased file epoch → v.answered = false → v.epoch ≠ epoch) :
    Sound m₀ (trail ++ cs) (World.epochsAfter epochs i) v := by
  refine ⟨(h.grow cs).known, fun hno => ?_⟩
  cases i with
  | rebased file epoch =>
    rcases h.foreign hno with h0 | hforeign
    · exact .inl h0
    · refine .inr fun hmem => ?_
      rcases List.mem_cons.mp hmem with heq | hmem
      · exact hfresh file epoch rfl hno heq
      · exact hforeign hmem
  | _ => exact h.foreign hno

theorem news_eq (p : Nat) (es : List Effect) : (heard p es).filterMap Frame.news = news p es := rfl

variable {d : Document M C}

/-- A step that tells this pipe nothing of the order. -/
theorem Linked.quiet {trail' : List (Commit M C)} {epochs' : List Nat} {d' : Document M C} {l : Link} {es : List Effect}
    (hl : Linked V m₀ trail epochs d v l) (halong : Memory.Along V (Sound m₀ trail' epochs') v l.inbox)
    (hnews : news l.pipe es = []) (hfalse : d'.seatAt l.pipe = some false → d.seatAt l.pipe = some false)
    (htrue : d'.seatAt l.pipe = some true → d.seatAt l.pipe = some true ∧ d'.rev = d.rev ∧ d'.model = d.model) :
    Linked V m₀ trail' epochs' d' v { l with inbox := l.inbox ++ heard l.pipe es } := by
  refine ⟨?_, ?_, ?_⟩
  · exact Memory.along_append.mpr ⟨halong, Memory.along_quiet halong.last hnews⟩
  · intro h
    obtain ⟨hinbox, hasked⟩ := hl.waits (hfalse h)
    refine ⟨?_, hasked⟩
    rw [List.filterMap_append, hinbox, List.nil_append]
    exact hnews
  · intro h v' hv'
    obtain ⟨hseat, hrev, hmodel⟩ := htrue h
    rw [List.foldl_append, Memory.foldl_receive _ (heard l.pipe es), news_eq, hnews] at hv'
    rw [hrev, hmodel]
    exact hl.joined hseat v' hv'

/-- The answer to a join that asks from what the view remembers gives it the document as it is. -/
theorem hear_answer {client : String} {m : ToClient} (hV : V.Follows F) (hk : Track F V m₀ trail d.core)
    (he : d.epoch ∈ epochs) (hv : Sound m₀ trail epochs v) (hm : Document.Answers F d client v.epoch v.rev m) :
    v.hear V m = ⟨d.epoch, d.rev, some d.model, true⟩ := by
  obtain ⟨name, canEdit, peers, rfl⟩ := hm
  have hsnapshot : V.load (F.snapshot d.model) = some d.model := hV.load d.model
  unfold Document.catchup
  by_cases hasked : v.epoch = d.epoch ∧ 0 < v.rev
  · rw [if_pos hasked]
    unfold Document.logSince
    split
    · rename_i missed hmissed
      split at hmissed
      · rename_i hfirst
        split at hmissed
        · rename_i hlen
          -- the view asks from a rev that the log still holds, so it has the model of that rev
          obtain rfl := Option.some.inj hmissed
          have hanswered : v.answered = true := by
            by_contra hno
            rcases hv.foreign (by simpa using hno) with h0 | hforeign
            · omega
            · exact hforeign (hasked.1 ▸ he)
          obtain ⟨m, hmodel, hcopy⟩ := hv.known hanswered
          have hlog : d.log = (trail.drop d.firstRev).map (·.entry) := hk.log
          have hle : d.firstRev ≤ trail.length := hk.first
          have hlog' : d.log.drop (v.rev - d.firstRev) = (trail.drop v.rev).map (·.entry) := by
            rw [hlog, ← List.map_drop, List.drop_drop]
            congr 2
            omega
          have hlen' : v.rev ≤ trail.length := by
            rw [hlog, List.length_map, List.length_drop] at hlen
            omega
          simp only [Memory.hear, hlog', List.map_map, hcopy, Memory.mk.injEq, true_and, and_true]
          exact hk.catchUp (trail.length - v.rev) v.rev m (by omega) hmodel
        · simp at hmissed
      · simp at hmissed
    · simp only [Memory.hear, hsnapshot]
  · rw [if_neg hasked]
    simp only [Memory.hear, hsnapshot]

/-- The changes of a step lead a view that is at the document before it to the document after it, and
    every memory on the way is sound. -/
theorem hear_puts {cs : List (Commit M C)} {k k' : Core M C} (hV : V.Follows F) (hk : Track F V m₀ trail k)
    (hrun : Run (Core.Put F) k cs k') (hanswered : v.answered = true) (hrev : v.rev = k.rev)
    (hcopy : v.copy = some k.model) :
    (∀ ms, ms <+: cs.map (fun c => .changed (changedOf F c.entry)) →
      Sound m₀ (trail ++ cs) epochs (ms.foldl (Memory.hear V) v)) ∧
    ∀ v', v' = (cs.map fun c => .changed (changedOf F c.entry)).foldl (Memory.hear V) v →
      v'.answered = true ∧ v'.rev = k'.rev ∧ v'.copy = some k'.model := by
  have hat : ∀ {trail : List (Commit M C)} {k : Core M C} {v : Memory M}, Track F V m₀ trail k →
      v.answered = true → v.rev = k.rev → v.copy = some k.model → Sound m₀ trail epochs v := by
    intro trail k v hk hanswered hrev hcopy
    exact ⟨fun _ => ⟨k.model, hrev ▸ hk.model, hcopy⟩, fun h => by simp [hanswered] at h⟩
  induction hrun with
  | nil =>
    refine ⟨fun ms hms => ?_, fun v' hv' => by subst hv'; exact ⟨hanswered, hrev, hcopy⟩⟩
    obtain rfl := List.prefix_nil.mp hms
    rw [List.append_nil]
    exact hat hk hanswered hrev hcopy
  | @snoc k₁ k₂ cs c hrun hnext ih =>
    obtain ⟨hsound, hlast⟩ := ih
    obtain ⟨hanswered₁, -, hcopy₁⟩ := hlast _ rfl
    have hk₂ : Track F V m₀ (trail ++ (cs ++ [c])) k₂ := by
      rw [← List.append_assoc]
      exact (hk.puts hV hrun).put hV hnext
    obtain ⟨⟨⟨change, since, a, a', happly⟩, -, -⟩, rfl⟩ := hnext
    have hbody : V.apply k₁.model (changedOf F c.entry).body = some c.model :=
      hV.apply _ _ _ _ _ _ _ happly
    have hend : ∀ v', v' = ((cs ++ [c]).map fun c => ToClient.changed (changedOf F c.entry)).foldl
        (Memory.hear V) v →
        v'.answered = true ∧ v'.rev = (k₁.put c).rev ∧ v'.copy = some (k₁.put c).model := by
      intro v' hv'
      subst hv'
      rw [List.map_append, List.foldl_append, List.map_singleton, List.foldl_cons, List.foldl_nil]
      refine ⟨hanswered₁, rfl, ?_⟩
      simp only [Memory.hear, hcopy₁, Option.bind_some, hbody]
      rfl
    refine ⟨fun ms hms => ?_, hend⟩
    rw [List.map_append, List.map_singleton, List.prefix_concat_iff] at hms
    rcases hms with rfl | hms
    · obtain ⟨ha, hr, hc⟩ := hend _ (by rw [List.map_append, List.map_singleton])
      exact hat hk₂ ha hr hc
    · rw [← List.append_assoc]
      exact (hsound ms hms).grow [c]

/-- Only a rebase gives the document another epoch. -/
theorem epochsAfter_puts {i : Input} {cs : List (Commit M C)} (hacts : d.acts F W i = cs.map .put) :
    World.epochsAfter epochs i = epochs := by
  cases i with
  | rebased => cases cs <;> simp [Document.acts] at hacts
  | _ => rfl

/-- One input keeps every link that it is allowed for. -/
theorem Linked.input {l : Link} (hF : F.RefusesClean) (hV : V.Follows F) (hk : Track F V m₀ trail d.core)
    (he : d.epoch ∈ epochs) (hl : Linked V m₀ trail epochs d v l) (i : Input)
    (hpipe : ∀ pipe viewer, i = .connected pipe viewer → l.pipe ≠ pipe)
    (hasks : ∀ pipe frame contract client epoch rev, i = .message pipe frame → l.pipe = pipe →
      decode W frame = some (.message (.join contract client epoch rev)) → l.asked = (epoch, rev))
    (hfresh : ∀ file epoch, i = .rebased file epoch → v.epoch ≠ epoch) :
    Linked V m₀ (trail ++ commits (d.acts F W i)) (World.epochsAfter epochs i) (d.step F W i).1 v
      { l with inbox := l.inbox ++ heard l.pipe (d.step F W i).2 } := by
  cases d.step_cases (W := W) hF i with
  | connected =>
    rename_i pipe viewer
    have hne : pipe ≠ l.pipe := (hpipe _ _ rfl).symm
    have hseat : (d.step F W (.connected pipe viewer)).1.seatAt l.pipe = d.seatAt l.pipe := by
      simp [Document.step, Document.seatAt, Std.TreeMap.getElem?_insert, hne]
    exact hl.quiet (hl.along.mono fun _ h => h.grow _) rfl (fun h => hseat ▸ h)
      fun h => ⟨hseat ▸ h, rfl, rfl⟩
  | saved =>
    exact hl.quiet (hl.along.mono fun _ h => h.grow _)
      (news_plain _ (by simp [Document.step, Document.saved, sendTo, Effect.plain])) id
      fun h => ⟨h, rfl, rfl⟩
  | rebased =>
    rename_i file epoch
    refine hl.quiet ?_ rfl id fun h => ⟨h, rfl, rfl⟩
    -- a memory that was not answered on the way still has the epoch that the view came with
    refine hl.along.imp (I := fun v' => v'.answered = false → v'.epoch = v.epoch) ?_ ?_ fun _ => rfl
    · intro v' f hkeep hno
      cases f with
      | asset => exact hkeep hno
      | message m =>
        cases m with
        | joined _ _ _ _ _ _ _ catchup => cases catchup <;> simp [Memory.receive, Memory.hear] at hno
        | _ => exact hkeep hno
    · intro v' hv' hepoch
      refine hv'.after _ _ fun file' epoch' heq hno => ?_
      rw [hepoch hno]
      exact hfresh file' epoch' heq
  | calm hacts h =>
    have hacts' : d.acts F W i = ([] : List (Commit M C)).map .put := hacts
    have hcore : (d.step F W i).1.rev = d.rev ∧ (d.step F W i).1.model = d.model :=
      ⟨congrArg Core.rev h.core, congrArg Core.model h.core⟩
    rw [epochsAfter_puts hacts']
    refine hl.quiet (hl.along.mono fun _ h => h.grow _) (news_plain _ h.plain) ?_ ?_
    · intro hseat
      rcases h.seats l.pipe with hs | hs
      · exact hs ▸ hseat
      · simp [hs] at hseat
    · intro hseat
      rcases h.seats l.pipe with hs | hs
      · exact ⟨hs ▸ hseat, hcore⟩
      · simp [hs] at hseat
  | @joins pipe frame contract client epoch rev hacts hframe h =>
    have hacts' : d.acts F W (.message pipe frame) = ([] : List (Commit M C)).map .put := hacts
    have hrev : (d.step F W (.message pipe frame)).1.rev = d.rev := congrArg Core.rev h.core
    have hmodel : (d.step F W (.message pipe frame)).1.model = d.model := congrArg Core.model h.core
    obtain ⟨m, hm, hnews⟩ := Document.news_joins h
    rw [epochsAfter_puts hacts']
    by_cases hp : l.pipe = pipe
    · -- the view's own join is answered
      obtain ⟨hquiet, hasked⟩ := hl.waits (hp ▸ h.waited)
      rw [hasks _ _ _ _ _ _ rfl hp hframe, Prod.mk.injEq] at hasked
      obtain ⟨rfl, rfl⟩ := hasked
      have hnow : l.inbox.foldl (Memory.receive V) v = v := by
        rw [Memory.foldl_receive, hquiet]
        rfl
      have hheard : (heard l.pipe (d.step F W (.message pipe frame)).2).filterMap Frame.news = [m] := by
        rw [news_eq, hnews, if_pos hp]
      have hanswer := hear_answer hV hk he hl.along.head hm
      have hsound : Sound m₀ (trail ++ commits (d.acts F W (.message pipe frame))) epochs
          (v.hear V m) := by
        rw [hanswer]
        exact ⟨fun _ => ⟨d.model, getElem?_models_append hk.model _, rfl⟩, fun h => by simp at h⟩
      refine ⟨Memory.along_append.mpr ⟨hl.along.mono fun _ h => h.grow _, ?_⟩, ?_, ?_⟩
      · rw [hnow]
        refine Memory.along_news fun ms hms => ?_
        rw [hheard, ← List.nil_append [m], List.prefix_concat_iff, List.prefix_nil] at hms
        rcases hms with rfl | rfl
        · exact hsound
        · exact hl.along.head.grow _
      · intro hseat
        rw [hp, h.seated] at hseat
        simp at hseat
      · intro _ v' hv'
        rw [List.foldl_append, hnow, Memory.foldl_receive, hheard, List.foldl_cons, List.foldl_nil,
          hanswer] at hv'
        subst hv'
        exact ⟨rfl, hrev.symm, congrArg some hmodel.symm⟩
    · refine hl.quiet (hl.along.mono fun _ h => h.grow _) (by rw [hnews, if_neg hp]) ?_ ?_
      · intro hseat
        rcases h.others l.pipe hp with hs | hs
        · exact hs ▸ hseat
        · simp [hs] at hseat
      · intro hseat
        rcases h.others l.pipe hp with hs | hs
        · exact ⟨hs ▸ hseat, hrev, hmodel⟩
        · simp [hs] at hseat
  | puts cs hacts h =>
    rw [epochsAfter_puts hacts, hacts, Document.commits_put]
    have hseat := h.seats l.pipe
    by_cases hj : d.seatAt l.pipe = some true
    · obtain ⟨hanswered, hrev, hcopy⟩ := hl.joined hj _ rfl
      obtain ⟨hsound, hlast⟩ := hear_puts hV hk h.run hanswered hrev hcopy
      have hheard : (heard l.pipe (d.step F W i).2).filterMap Frame.news =
          cs.map fun c => .changed (changedOf F c.entry) := by
        rw [news_eq, h.news, if_pos hj]
      refine ⟨Memory.along_append.mpr ⟨hl.along.mono fun _ h => h.grow _, ?_⟩, ?_, ?_⟩
      · refine Memory.along_news fun ms hms => hsound ms ?_
        rwa [hheard] at hms
      · intro hno
        rw [hseat, hj] at hno
        simp at hno
      · intro _ v' hv'
        rw [List.foldl_append, Memory.foldl_receive _ (heard l.pipe (d.step F W i).2), hheard] at hv'
        exact hlast v' hv'
    · refine hl.quiet (hl.along.mono fun _ h => h.grow _) (by rw [h.news, if_neg hj])
        (fun hno => hseat ▸ hno) fun hyes => absurd (hseat ▸ hyes) hj

/-- The answer to its join gives a view the document as it is. -/
theorem Linked.joins {m₀ : M} {trail : List (Commit M C)} {epochs : List Nat} {d : Document M C}
    {v : Memory M} {l : Link} (hF : F.RefusesClean) (hV : V.Follows F)
    (hk : Track F V m₀ trail d.core) (he : d.epoch ∈ epochs)
    (hl : Linked V m₀ trail epochs d v l) {i : Input}
    (hasks : ∀ pipe frame contract client epoch rev, i = .message pipe frame → l.pipe = pipe →
      decode W frame = some (.message (.join contract client epoch rev)) → l.asked = (epoch, rev))
    {client name : String} {canEdit : Bool} {epoch rev seq : Nat} {peers : List Peer}
    {catchup : Catchup} (hmem : .joined client name canEdit epoch rev seq peers catchup ∈
      news l.pipe (d.step F W i).2) :
    v.hear V (.joined client name canEdit epoch rev seq peers catchup) =
      ⟨(d.step F W i).1.epoch, (d.step F W i).1.rev, some (d.step F W i).1.model, true⟩ := by
  obtain ⟨_, h⟩ | ⟨_, _, _, _, _, hi, hframe, h, hm⟩ := Document.news_cases hF hmem
  · cases h
  · obtain ⟨-, hasked⟩ := hl.waits h.waited
    rw [hasks _ _ _ _ _ _ hi rfl hframe, Prod.mk.injEq] at hasked
    obtain ⟨rfl, rfl⟩ := hasked
    have hepoch : (d.step F W i).1.epoch = d.epoch := congrArg Core.epoch h.core
    have hrev : (d.step F W i).1.rev = d.rev := congrArg Core.rev h.core
    have hmodel : (d.step F W i).1.model = d.model := congrArg Core.model h.core
    rw [hear_answer hV hk he hl.along.head hm, hepoch, hrev, hmodel]

theorem track_step (hF : F.RefusesClean) (hV : V.Follows F) (hk : Track F V m₀ trail d.core) (i : Input) :
    Track F V m₀ (trail ++ commits (d.acts F W i)) (d.step F W i).1.core := by
  have hputs : (∀ rev, i ≠ .saved rev) → (∀ file epoch, i ≠ .rebased file epoch) →
      Track F V m₀ (trail ++ commits (d.acts F W i)) (d.step F W i).1.core := fun hsaved hrebased =>
    hk.puts hV (d.step_puts hF i hsaved hrebased).2
  cases i with
  | saved rev =>
    have hnone : commits (d.acts F W (.saved rev)) = [] := rfl
    rw [hnone, List.append_nil]
    exact ⟨hk.rev, hk.first, hk.log, hk.model, hk.chain⟩
  | rebased file epoch =>
    have hnone : commits (d.acts F W (.rebased file epoch)) = [] := rfl
    rw [hnone, List.append_nil]
    refine ⟨hk.rev, hk.rev.le, ?_, hk.model, hk.chain⟩
    show [] = (trail.drop d.core.rev).map (·.entry)
    rw [List.drop_of_length_le hk.rev.ge, List.map_nil]
  | connected | message | left | fileChanged | save | saveWaits | closing =>
    exact hputs (by simp) (by simp)

theorem epoch_step (hF : F.RefusesClean) (he : d.epoch ∈ epochs) (i : Input) :
    (d.step F W i).1.epoch ∈ World.epochsAfter epochs i := by
  have hputs : (∀ rev, i ≠ .saved rev) → (∀ file epoch, i ≠ .rebased file epoch) →
      (d.step F W i).1.epoch = d.epoch := fun hsaved hrebased =>
    (d.step_puts (W := W) hF i hsaved hrebased).2.invariant (I := fun k => k.epoch = d.epoch)
      (fun hk hput => by rw [hput.2]; exact hk) rfl
  cases i with
  | saved rev => exact he
  | rebased file epoch => exact List.mem_cons_self
  | connected | message | left | fileChanged | save | saveWaits | closing =>
    exact hputs (by simp) (by simp) ▸ he

/-- A view with or without a link. -/
def View.Valid (V : ViewFormat M) (m₀ : M) (trail : List (Commit M C)) (epochs : List Nat)
    (d : Document M C) (v : View M) : Prop :=
  match v.link with
  | none => Sound m₀ trail epochs v.memory
  | some l => Linked V m₀ trail epochs d v.memory l

theorem View.Valid.sound {v : View M} (hv : v.Valid V m₀ trail epochs d) : Sound m₀ trail epochs v.memory := by
  unfold View.Valid at hv
  split at hv
  · exact hv
  · exact hv.along.head

theorem View.Valid.linked {v : View M} (hv : v.Valid V m₀ trail epochs d) {l : Link} (hl : v.link = some l) :
    Linked V m₀ trail epochs d v.memory l := by
  unfold View.Valid at hv
  rwa [hl] at hv

/-- What holds of a document with its views at any time. -/
structure World.Valid {ι : Type} (F : Format M C Q) (V : ViewFormat M) (m₀ : M)
    (w : World ι M C) : Prop where
  track : Track F V m₀ w.trail w.doc.core
  epoch : w.doc.epoch ∈ w.epochs
  views : ∀ v, (w.views v).Valid V m₀ w.trail w.epochs w.doc

/-- One input keeps a view, when each link that it has allows the input. -/
theorem View.Valid.input {v : View M} (hF : F.RefusesClean) (hV : V.Follows F) (hk : Track F V m₀ trail d.core)
    (he : d.epoch ∈ epochs) (hv : v.Valid V m₀ trail epochs d) (i : Input)
    (hpipe : ∀ l pipe viewer, v.link = some l → i = .connected pipe viewer → l.pipe ≠ pipe)
    (hasks : ∀ l pipe frame contract client epoch rev, v.link = some l → i = .message pipe frame →
      l.pipe = pipe → decode W frame = some (.message (.join contract client epoch rev)) →
      l.asked = (epoch, rev)) (hfresh : ∀ file epoch, i = .rebased file epoch → v.memory.epoch ≠ epoch) :
    (v.take (d.step F W i).2).Valid V m₀ (trail ++ commits (d.acts F W i))
      (World.epochsAfter epochs i) (d.step F W i).1 := by
  cases hl : v.link with
  | none =>
    have hlink : (v.take (d.step F W i).2).link = none := by simp [View.take, hl]
    unfold View.Valid
    rw [hlink]
    exact hv.sound.after _ i fun file epoch heq _ => hfresh file epoch heq
  | some l =>
    have hlink : (v.take (d.step F W i).2).link =
        some { l with inbox := l.inbox ++ heard l.pipe (d.step F W i).2 } := by
      simp [View.take, hl]
    unfold View.Valid
    rw [hlink]
    exact (hv.linked hl).input hF hV hk he i (hpipe l · · hl)
      (fun pipe frame contract client epoch rev => hasks l pipe frame contract client epoch rev hl)
      hfresh

theorem World.valid_input {ι : Type} {w : World ι M C} (hF : F.RefusesClean) (hV : V.Follows F) (hw : w.Valid F V m₀)
    {i : Input} (hallows : w.Allows W i) :
    (w.input F W i).Valid F V m₀ := by
  refine ⟨track_step hF hV hw.track i, epoch_step hF hw.epoch i, fun v => ?_⟩
  refine (hw.views v).input hF hV hw.track hw.epoch i ?_ ?_ ?_
  · rintro l pipe viewer hl rfl
    exact hallows v l hl
  · rintro l pipe frame contract client epoch rev hl rfl hp hframe
    exact hallows v l contract client epoch rev hl hp hframe
  · rintro file epoch rfl
    exact hallows v

variable {ι : Type} [DecidableEq ι]

theorem World.valid_setView {w : World ι M C} (hw : w.Valid F V m₀) {v : ι} {view : View M}
    (hview : view.Valid V m₀ w.trail w.epochs w.doc) : (w.setView v view).Valid F V m₀ := by
  refine ⟨hw.track, hw.epoch, fun u => ?_⟩
  simp only [World.setView]
  by_cases hu : u = v
  · subst hu
    rwa [Function.update_self]
  · rw [Function.update_of_ne hu]
    exact hw.views u

theorem World.valid_step {w w' : World ι M C} {e : Happens ι} (hF : F.RefusesClean) (hV : V.Follows F)
    (hw : w.Valid F V m₀) (hnext : World.Next F W V w e w') :
    w'.Valid F V m₀ := by
  cases hnext with
  | input hallows => exact World.valid_input hF hV hw hallows
  | @lose v =>
    exact World.valid_setView hw (hw.views v).sound
  | @deliver v l f rest hlink hinbox =>
    obtain ⟨halong, hwaits, hjoined⟩ := (hw.views v).linked hlink
    rw [hinbox] at halong hwaits hjoined
    refine World.valid_setView hw ⟨halong.2, fun hseat => ?_, fun hseat v' hv' => ?_⟩
    · -- nothing of the order was on the way, so the frame changed nothing
      obtain ⟨hnews, hasked⟩ := hwaits hseat
      have hf : f.news = none := List.filterMap_eq_nil_iff.mp hnews f List.mem_cons_self
      rw [List.filterMap_cons_none hf] at hnews
      rw [Memory.receive_none _ hf]
      exact ⟨hnews, hasked⟩
    · exact hjoined hseat v' hv'
  | @connect v pipe viewer hfree =>
    have htrack := track_step (W := W) hF hV hw.track (.connected pipe viewer)
    have hnone : commits (w.doc.acts F W (.connected pipe viewer)) = [] := rfl
    rw [hnone, List.append_nil] at htrack
    refine ⟨htrack, hw.epoch, fun u => ?_⟩
    simp only [World.connect, World.setView]
    by_cases hu : u = v
    · subst hu
      rw [Function.update_self]
      refine ⟨(hw.views u).sound, fun _ => ⟨rfl, rfl⟩, fun hseat => ?_⟩
      -- the new seat waits for the join
      simp [Document.step, Document.seatAt] at hseat
    · rw [Function.update_of_ne hu]
      have h := (hw.views u).input (W := W) hF hV hw.track hw.epoch (.connected pipe viewer) ?_ ?_ ?_
      · have htake : (w.views u).take [] = w.views u := by
          cases hview : w.views u with
          | mk memory link => cases link <;> simp [View.take, heard]
        rw [hnone, List.append_nil] at h
        rw [← htake]
        exact h
      · rintro l _ _ hl heq
        obtain ⟨rfl, -⟩ := Input.connected.inj heq
        exact hfree u l hu hl
      · rintro _ _ _ _ _ _ _ _ heq
        simp at heq
      · rintro _ _ heq
        simp at heq

/-! ### Every run -/

/-- In every run, a view that this document answered holds, at the rev that it remembers, the model that
    the order had after so many changes. Once its pipe joined, what is on its way leads it to the model
    and the rev of the document, and the answer to its join alone does so too. -/
theorem views_follow (hF : F.RefusesClean) (hV : V.Follows F) {file : Bytes} {epoch : Nat}
    {assets : Assets} {d₀ : Document M C} (hopen : Document.openFile F file epoch assets = .ok d₀)
    {views₀ : ι → View M}
    (hviews : ∀ v, (views₀ v).link = none ∧ (views₀ v).memory.answered = false ∧
      ((views₀ v).memory.rev = 0 ∨ (views₀ v).memory.epoch ≠ epoch))
    {events : List (Happens ι)} {w : World ι M C}
    (hrun : Run (World.Next F W V) ⟨d₀, views₀, [], [epoch]⟩ events w) :
    ((models d₀.model w.trail).length = w.doc.rev + 1 ∧
      (models d₀.model w.trail)[w.doc.rev]? = some w.doc.model) ∧
    (∀ v, (w.views v).memory.answered = true →
      ∃ m, (models d₀.model w.trail)[(w.views v).memory.rev]? = some m ∧
        (w.views v).memory.copy = some m) ∧
    (∀ v l, (w.views v).link = some l → w.doc.seatAt l.pipe = some true →
      let now := l.inbox.foldl (Memory.receive V) (w.views v).memory
      now.rev = w.doc.rev ∧ now.copy = some w.doc.model) ∧
    (∀ i, w.Allows W i → ∀ v l client name canEdit epoch rev seq peers catchup,
      (w.views v).link = some l →
      let out := w.doc.step F W i
      .joined client name canEdit epoch rev seq peers catchup ∈ news l.pipe out.2 →
      (w.views v).memory.hear V (.joined client name canEdit epoch rev seq peers catchup) =
        ⟨out.1.epoch, out.1.rev, some out.1.model, true⟩) := by
  have hstart : World.Valid F V d₀.model (⟨d₀, views₀, [], [epoch]⟩ : World ι M C) := by
    simp only [Document.openFile, bind, Except.bind] at hopen
    split at hopen
    · simp at hopen
    obtain rfl := Except.ok.inj hopen
    refine ⟨⟨rfl, le_rfl, rfl, rfl, by simp⟩, by simp, fun v => ?_⟩
    obtain ⟨hlink, hanswered, hstranger⟩ := hviews v
    unfold View.Valid
    rw [hlink]
    exact ⟨fun h => by simp [hanswered] at h, fun _ => by simpa using hstranger⟩
  have hw : w.Valid F V d₀.model :=
    hrun.invariant (fun hw hnext => World.valid_step hF hV hw hnext) hstart
  refine ⟨⟨by rw [length_models]; exact congrArg (· + 1) hw.track.rev.symm, hw.track.model⟩, ?_, ?_, ?_⟩
  · exact fun v => (hw.views v).sound.known
  · intro v l hl hseat now
    exact (((hw.views v).linked hl).joined hseat now rfl).2
  · intro i hallows v l client name canEdit epoch rev seq peers catchup hl out hmem
    refine ((hw.views v).linked hl).joins hF hV hw.track hw.epoch ?_ hmem
    rintro pipe frame contract client epoch rev rfl hp hframe
    exact hallows v l contract client epoch rev hl hp hframe

/-- One view of the small format: it joins, and another program writes two more bytes to the file. -/
theorem views_follow_tally :
    let w₀ : World Unit Nat Nat :=
      ⟨⟨1, ⟨[]⟩, [0], 1, 0, 0, [], ∅, ∅, 0, [0], false⟩, fun _ => ⟨⟨0, 0, none, false⟩, none⟩, [], [1]⟩
    let w := ((w₀.connect Tally.format Tally.wire () 1 ⟨"ana", "ana", true⟩).input Tally.format
      Tally.wire (.message 1 [0, 0, 0, 0])).input Tally.format Tally.wire
      (.fileChanged [0, 0, 0] "script")
    ∀ l, (w.views ()).link = some l → w.doc.seatAt l.pipe = some true →
      let now := l.inbox.foldl (Memory.receive Tally.view) (w.views ()).memory
      now.rev = 1 ∧ now.copy = some 3 := by
  intro w₀ w
  have hopen : Document.openFile Tally.format [0] 1 ⟨[]⟩ = .ok w₀.doc := by
    simp [Document.openFile, Tally.format, bind, Except.bind, pure, Except.pure, w₀]
  have hjoin : (w₀.connect Tally.format Tally.wire () 1 ⟨"ana", "ana", true⟩).Allows Tally.wire
      (.message 1 [0, 0, 0, 0]) := by
    intro v l contract client epoch rev hl _ hframe
    obtain rfl := Option.some.inj hl
    obtain ⟨-, -, rfl, rfl⟩ : CONTRACT = contract ∧ "ana" = client ∧ 0 = epoch ∧ 0 = rev := by
      simpa [decode, JSON_FRAME, Tally.wire] using hframe
    rfl
  have hrun : Run (World.Next Tally.format Tally.wire Tally.view) w₀ _ w :=
    ((Run.nil.snoc (.connect (by simp))).snoc (.input hjoin)).snoc (.input trivial)
  have hdoc : w.doc.rev = 1 ∧ w.doc.model = 3 := by decide
  have h := (views_follow Tally.refusesClean Tally.follows hopen
    (fun _ => ⟨rfl, rfl, .inl rfl⟩) hrun).2.2.1 ()
  rwa [hdoc.1, hdoc.2] at h

end Kodosi.Documents
