import Kodosi.Documents.Session

/-! Each edit of a person is in the order at most once, over any run of a client with its document, as
    long as no batch that the order has already goes out again. -/

namespace Kodosi.Documents
open Kodosi.Lib

variable {M C Q A : Type} {F : Format M C Q} {W : Wire} {toValue : A → Value} {id : String}

/-! ### The answer to a join -/

/-- What the changes that a client missed make of it. -/
structure CaughtUp (id : String) (c c' : Client A) (changes : List Changed) : Prop where
  pipe : c'.pipe = c.pipe
  rev : c'.rev = c.rev ∨ ∃ changed ∈ changes, c'.rev = changed.rev
  own : (∀ changed ∈ changes, changed.client ≠ id) ∧ c'.outbox = c.outbox ∧
      c'.waitingSeq = c.waitingSeq ∨
    c'.outbox = c.outbox.answered ∧ (c'.waitingSeq = c.waitingSeq ∨
      ∃ changed ∈ changes, changed.client = id ∧ c.waitingSeq = some changed.seq)

theorem caughtUp (id : String) (c : Client A) (changes : List Changed) :
    CaughtUp id c (changes.foldl (Client.applied id) c) changes := by
  induction changes generalizing c with
  | nil => exact ⟨rfl, .inl rfl, .inl ⟨by simp, rfl, rfl⟩⟩
  | cons changed changes ih =>
    obtain ⟨hpipe, hrev, hown⟩ := ih (c.applied id changed)
    rw [List.foldl_cons]
    have hrev' : (c.applied id changed).rev = changed.rev := by
      unfold Client.applied
      split <;> rfl
    refine ⟨?_, ?_, ?_⟩
    · rw [hpipe]
      unfold Client.applied
      split <;> rfl
    · refine .inr ?_
      rcases hrev with hrev | ⟨later, hmem, hrev⟩
      · exact ⟨changed, List.mem_cons_self, hrev.trans hrev'⟩
      · exact ⟨later, List.mem_cons_of_mem _ hmem, hrev⟩
    · by_cases hclient : changed.client = id
      · have houtbox : (c.applied id changed).outbox = c.outbox.answered := by
          simp [Client.applied, hclient]
        have hwaiting : (c.applied id changed).waitingSeq = c.waitingSeq ∨
            c.waitingSeq = some changed.seq := by
          by_cases hseq : c.waitingSeq = some changed.seq
          · exact .inr hseq
          · exact .inl (by simp [Client.applied, hclient, hseq])
        refine .inr ⟨?_, ?_⟩
        · rcases hown with ⟨-, h, -⟩ | ⟨h, -⟩ <;> rw [h, houtbox]
          rfl
        · rcases hwaiting with hwaiting | hwaiting
          · rw [hwaiting] at hown
            rcases hown with ⟨-, -, h⟩ | ⟨-, h | ⟨later, hmem, h⟩⟩
            · exact .inl h
            · exact .inl h
            · exact .inr ⟨later, List.mem_cons_of_mem _ hmem, h⟩
          · exact .inr ⟨changed, List.mem_cons_self, hclient, hwaiting⟩
      · have hsame : (c.applied id changed).outbox = c.outbox ∧
            (c.applied id changed).waitingSeq = c.waitingSeq := by
          simp [Client.applied, hclient]
        rw [hsame.1, hsame.2] at hown
        rcases hown with ⟨hno, houtbox, hwaiting⟩ | ⟨houtbox, h | ⟨later, hmem, h⟩⟩
        · refine .inl ⟨fun later hlater => ?_, houtbox, hwaiting⟩
          rcases List.mem_cons.mp hlater with rfl | hlater
          · exact hclient
          · exact hno later hlater
        · exact .inr ⟨houtbox, .inl h⟩
        · exact .inr ⟨houtbox, .inr ⟨later, List.mem_cons_of_mem _ hmem, h⟩⟩

namespace Session

variable {s : Session M C A}

/-- An own change from before the join answers no batch that still waits on this link. -/
theorem Valid.seq_ne (hs : s.Valid id) {pipe : Nat} (hl : Linked id s pipe) {r : Nat}
    (hlater : ∀ own, .changed own ∈ words s.down → r < own.rev) {changed : Changed}
    (hmem : changed.stamp ∈ s.order.map (·.1)) (hrev : changed.rev ≤ r) (hclient : changed.client = id) :
    changed.seq ∉ s.outstanding id := by
  intro hq
  obtain ⟨-, hle⟩ := hs.seq_le hmem hclient
  rcases List.mem_append.mp hq with hq | hq
  · obtain ⟨m, hm, hseq⟩ := List.mem_filterMap.mp hq
    cases m with
    | changed own =>
      simp only [answerSeq, Option.ite_none_right_eq_some, Option.some.injEq] at hseq
      have hown := (hl.leads.of_mem hm).2
      have hlt : changed.stamp.rev < own.stamp.rev := lt_of_le_of_lt hrev (hlater own hm)
      have := hs.seq_lt hmem hown hclient hseq.1 hlt
      exact absurd hseq.2 (by simpa [Changed.stamp] using this.ne')
    | refused seq reason detail =>
      simp only [answerSeq, Option.ite_none_right_eq_some, Option.some.injEq] at hseq
      have := hl.refusals hseq.1 seq reason detail hm
      have : changed.seq ≤ s.doc.lastSeq id := hle
      omega
    | _ => simp [answerSeq] at hseq
  · obtain ⟨x, -, hseq⟩ := List.mem_filterMap.mp hq
    unfold liveSeq at hseq
    split at hseq
    · simp only [Option.ite_none_right_eq_some, Option.some.injEq] at hseq
      have : changed.seq ≤ s.doc.lastSeq id := hle
      omega
    · simp at hseq

/-- The answer to its join brings the client up to the order. -/
theorem Valid.joined (hs : s.Valid id) {i name : String} {canEdit : Bool} {epoch r seq : Nat} {peers : List Peer}
    {catchup : Catchup} {rest : List (Frame ToClient)}
    (hdown : s.down = .message (.joined i name canEdit epoch r seq peers catchup) :: rest)
    (hclear : ∀ snapshot, catchup = .snapshot snapshot → s.client.waitingSeq = none → s.Unanswered) :
    Valid id { s with
      client := { s.client with epoch, lastSeq := seq }.caughtUp id r catchup
      down := rest
      taken := true } := by
  have hpipe := hs.piped hdown
  obtain ⟨pipe, hp⟩ := Option.ne_none_iff_exists'.mp hpipe
  have hl := hs.linked hp
  have hwords : words s.down = .joined i name canEdit epoch r seq peers catchup :: words rest := by
    rw [hdown]
    exact words_cons rfl rest
  have hleads := hl.leads
  rw [hwords] at hleads
  obtain ⟨htaken, hle, hlength, hmissed, hrest⟩ := hleads
  have hsub : (words rest).Sublist (words s.down) := by
    rw [hwords]
    exact List.sublist_cons_self _ _
  have hlater : ∀ own, .changed own ∈ words s.down → r < own.rev := by
    intro own hmem
    rw [hwords] at hmem
    rcases List.mem_cons.mp hmem with heq | hmem
    · simp at heq
    · exact (hrest.of_mem hmem).1
  have hout : outstanding id { s with down := rest } = s.outstanding id := by
    rw [outstanding, outstanding, hwords, List.filterMap_cons_none rfl]
  generalize hc : { s.client with epoch, lastSeq := seq }.caughtUp id r catchup = c
  -- the client at the answer: its rev, its batch and what it waits for
  have hfacts : c.pipe = s.client.pipe ∧ c.rev ≤ r ∧
      (c.outbox = s.client.outbox ∨ c.outbox = s.client.outbox.answered) ∧
      (∀ q ∈ s.outstanding id, c.waitingSeq = some q) ∧
      ∀ e ∈ c.outbox.sent, ∀ o ∈ s.order, e.id ∈ o.2 →
        ∃ own, .changed own ∈ words rest ∧ own.stamp = o.1 := by
    have hbehind : ∀ e ∈ s.client.outbox.sent, ∀ o ∈ s.order, e.id ∈ o.2 →
        (∃ own, .changed own ∈ words rest ∧ own.stamp = o.1) ∨
          s.client.waitingSeq = none ∧ o.1.rev ≤ r := by
      intro e he o ho hn
      rcases hl.comes e he o ho hn with ⟨own, hmem, hstamp⟩ | ⟨-, hwaiting, hall⟩
      · rw [hwords] at hmem
        rcases List.mem_cons.mp hmem with heq | hmem
        · simp at heq
        · exact .inl ⟨own, hmem, hstamp⟩
      · exact .inr ⟨hwaiting, hall _ _ _ _ _ _ _ _ (hwords ▸ List.mem_cons_self)⟩
    cases catchup with
    | snapshot snapshot =>
      subst hc
      refine ⟨rfl, le_rfl, .inl rfl, hl.waiting, fun e he o ho hn => ?_⟩
      rcases hbehind e he o ho hn with h | ⟨hwaiting, -⟩
      · exact h
      · exact absurd (mem_ids.mpr ⟨o, ho, hn⟩) (hclear snapshot rfl hwaiting e he)
    | missed changes =>
      obtain ⟨hin, hall⟩ := hmissed changes rfl
      have hup := caughtUp id { s.client with epoch, lastSeq := seq } changes
      have hc' : changes.foldl (Client.applied id) { s.client with epoch, lastSeq := seq } = c := hc
      rw [hc'] at hup
      refine ⟨hup.pipe, ?_, ?_, ?_, ?_⟩
      · rcases hup.rev with h | ⟨changed, hmem, h⟩
        · exact h ▸ hle
        · exact h ▸ (hin changed hmem).2
      · rcases hup.own with ⟨-, h, -⟩ | ⟨h, -⟩
        · exact .inl h
        · exact .inr h
      · intro q hq
        have hwaiting := hl.waiting q hq
        rcases hup.own with ⟨-, -, h⟩ | ⟨-, h | ⟨changed, hmem, hclient, hseq⟩⟩
        · exact h.trans hwaiting
        · exact h.trans hwaiting
        · obtain rfl : changed.seq = q := Option.some.inj (hseq.symm.trans hwaiting)
          exact absurd hq (hs.seq_ne hl hlater (hin changed hmem).1 (hin changed hmem).2 hclient)
      · intro e he o ho hn
        rcases hup.own with ⟨hno, houtbox, -⟩ | ⟨houtbox, -⟩
        · rw [houtbox] at he
          rcases hbehind e he o ho hn with h | ⟨-, hr⟩
          · exact h
          · -- its change is among the missed ones, and those are all of others
            obtain ⟨changed, hmem, hstamp⟩ := hall o ho (hs.unseen e he o ho hn) hr
            have := hs.client_eq ho hn
            rw [← hstamp] at this
            exact absurd this (hno changed hmem)
        · rw [houtbox] at he
          simp [Outbox.answered] at he
  obtain ⟨hcpipe, hcrev, hcoutbox, hcwaiting, hcbehind⟩ := hfacts
  refine hs.hears hcoutbox hcpipe (hcrev.trans hlength) ?_ ?_ fun h => absurd h hpipe
  · intro e he o ho hn
    obtain ⟨own, hmem, hstamp⟩ := hcbehind e he o ho hn
    have : r < own.rev := hlater own (hsub.subset hmem)
    rw [← hstamp]
    exact lt_of_le_of_lt hcrev this
  · intro q hq
    obtain rfl : pipe = q := Option.some.inj (hp.symm.trans hq)
    exact hl.next hwords (hrest.less hcrev) (hout ▸ hl.single) (hout ▸ hcwaiting) hcbehind

/-! ### The client takes a frame -/

theorem Valid.deliver {s : Session M C A} (hs : s.Valid id) {f : Frame ToClient}
    {rest : List (Frame ToClient)} (hdown : s.down = f :: rest)
    (hclear : s.Clear (.deliver : Occurs A)) :
    Valid id ({ s with down := rest, taken := s.taken || f.isJoined }.sends
      (s.client.receive toValue id f)) := by
  have hpipe := hs.piped hdown
  have hskip : f.word = none → f.isJoined = false → s.client.receive toValue id f = (s.client, []) →
      Valid id ({ s with down := rest, taken := s.taken || f.isJoined }.sends
        (s.client.receive toValue id f)) := by
    intro hword hno hreceive
    have := hs.skip hdown hword
    rw [hno, Bool.or_false, hreceive]
    simpa [sends] using this
  cases f with
  | asset hash bytes => exact hskip rfl rfl rfl
  | message m =>
    cases m with
    | joined i name canEdit epoch r seq peers catchup =>
      have hjoined := hs.joined hdown fun snapshot hc =>
        hclear i name canEdit epoch r seq peers snapshot rest (hc ▸ hdown)
      have hkeep : ({ s.client with epoch, lastSeq := seq }.caughtUp id r catchup).pipe ≠ none := by
        cases catchup with
        | snapshot => exact hpipe
        | missed changes =>
          have := (caughtUp id { s.client with epoch, lastSeq := seq } changes).pipe
          exact fun h => hpipe (this.symm.trans h)
      have := hjoined.pull toValue fun _ _ hwaiting =>
        hjoined.unanswered rfl hkeep hwaiting
      simpa [sends, Client.receive, Client.handle, Frame.isJoined] using this
    | changed changed =>
      obtain ⟨happlied, htaken⟩ := hs.applied hdown
      have := happlied.pull toValue fun hp _ hwaiting =>
        happlied.unanswered htaken hp hwaiting
      simpa [sends, Client.receive, Client.handle, Frame.isJoined] using this
    | refused seq reason detail =>
      obtain ⟨hrefused, htaken⟩ := hs.refused hdown
      cases reason with
      | behind =>
        have := hrefused.pull toValue fun hp _ hwaiting =>
          hrefused.unanswered htaken hp hwaiting
        simpa [sends, Client.receive, Client.handle, Frame.isJoined] using this
      | invalid =>
        have := hrefused.reload htaken hpipe
        simpa [sends, Client.receive, Client.handle, Frame.isJoined] using this
    | answer | saved | peer | left | closed => exact hskip rfl rfl rfl

/-! ### The document moves -/

variable {new : List (Stamp × List Nat)}

variable {d' : Document M C} {frames : List (Frame ToClient)} {up' : List (Sent A)}

/-- What a step of the document keeps of a link: it told the client what it put in the order. -/
theorem Linked.moves {pipe : Nat} (hl : Linked id s pipe) {ws : List ToClient} (hws : words frames = ws)
    (hup : up'.Sublist s.up) (hlast : s.doc.lastSeq id ≤ d'.lastSeq id)
    (hsits : ∀ seat, d'.seats[pipe]? = some seat → seat.viewer.canEdit = s.canEdit ∧
      (seat.client = none ∧ s.taken = false ∧ words s.down ++ ws = [] ∨
        seat.client = some id ∧ (s.taken || (words s.down ++ ws).any isJoined) = true))
    (hnew : ∀ o ∈ new, s.order.length < o.1.rev)
    (hleads : Leads (s.order ++ new) (s.taken || (words s.down).any isJoined) (endRev s.client.rev (words s.down)) ws)
    (hout : (ws.filterMap (answerSeq id s.canEdit) ++
      up'.filterMap (liveSeq s.canEdit (d'.lastSeq id))).Sublist
      (s.up.filterMap (liveSeq s.canEdit (s.doc.lastSeq id)))) (hrefusals : s.canEdit = true → ∀ q reason detail,
      .refused q reason detail ∈ words s.down ++ ws → d'.lastSeq id < q)
    (hreader : s.canEdit = false → ∀ changed, .changed changed ∈ ws → changed.client ≠ id)
    (hjoined : ∀ i name canEdit epoch rev seq peers catchup,
      .joined i name canEdit epoch rev seq peers catchup ∈ ws → ∀ o ∈ s.order, o.1.rev ≤ rev)
    (hown : ∀ o ∈ new, o.2 ≠ [] → ∃ changed, .changed changed ∈ ws ∧ changed.stamp = o.1) :
    Linked id { s with doc := d', up := up', down := s.down ++ frames, order := s.order ++ new }
      pipe := by
  have hwords : words (s.down ++ frames) = words s.down ++ ws := by rw [words_append, hws]
  have hsub : (outstanding id ({ s with
      doc := d', up := up', down := s.down ++ frames, order := s.order ++ new } :
        Session M C A)).Sublist (s.outstanding id) := by
    simp only [outstanding, hwords, List.filterMap_append, List.append_assoc]
    exact (List.Sublist.refl _).append hout
  refine ⟨?_, ?_, ?_, hsub.length_le.trans hl.single, ?_, ?_, ?_, ?_, ?_⟩
  · simpa only [hwords] using hsits
  · exact fun x hx => hl.asks x (hup.subset hx)
  · simpa only [hwords] using (hl.leads.grow hnew).append hleads
  · exact fun q hq => hl.waiting q (hsub.subset hq)
  · simpa only [hwords] using hrefusals
  · intro hcan changed hmem
    simp only [hwords] at hmem
    rcases List.mem_append.mp hmem with hmem | hmem
    · exact hl.reader hcan changed hmem
    · exact hreader hcan changed hmem
  · refine (hl.last.sublist hup).imp fun {x y} h => ?_
    rcases h with h | h
    · refine .inl ?_
      by_contra hne
      obtain ⟨q, hq⟩ := Option.ne_none_iff_exists'.mp hne
      rw [liveSeq_mono hlast hq] at h
      simp at h
    · exact .inr h
  · intro e he o ho hn
    simp only [Comes, hwords]
    rcases List.mem_append.mp ho with ho | ho
    · rcases hl.comes e he o ho hn with ⟨own, hmem, hstamp⟩ | ⟨htaken, hwaiting, hall⟩
      · exact .inl ⟨own, List.mem_append_left _ hmem, hstamp⟩
      · refine .inr ⟨htaken, hwaiting, fun i name canEdit epoch rev seq peers catchup hmem => ?_⟩
        rcases List.mem_append.mp hmem with hmem | hmem
        · exact hall _ _ _ _ _ _ _ _ hmem
        · exact hjoined _ _ _ _ _ _ _ _ hmem o ho
    · obtain ⟨own, hmem, hstamp⟩ := hown o ho (List.ne_nil_of_mem hn)
      exact .inl ⟨own, List.mem_append_right _ hmem, hstamp⟩

/-- What goes in the order comes after all that is in it. -/
theorem rev_new (htells : d'.core.tip.Tells ((s.order ++ new).map (·.1))) : ∀ o ∈ new, s.order.length < o.1.rev := by
  intro o ho
  obtain ⟨i, hi, rfl⟩ := List.mem_iff_getElem.mp ho
  have := htells.revs (s.order.length + i) (new[i]).1 (by simp [hi])
  omega

/-- What a step of the document keeps of a session: each edit that it put in the order was on its way,
    and is on its way no more. -/
theorem Valid.moves (hs : s.Valid id) (hup : up'.Sublist s.up) (htells : d'.core.tip.Tells ((s.order ++ new).map (·.1)))
    (hown : ∀ o ∈ new, (o.2 ≠ [] → o.1.client = id) ∧ (o.1.client = id → 0 < o.1.seq)) (hnodup : (ids new).Nodup)
    (hids : ∀ n ∈ ids new, (∃ x ∈ s.up, n ∈ x.edits.map (·.id)) ∧ ∀ x ∈ up', n ∉ x.edits.map (·.id))
    (hlink : ∀ pipe, s.client.pipe = some pipe → Linked id { s with
      doc := d', up := up', down := s.down ++ frames, order := s.order ++ new } pipe)
    (hnone : s.client.pipe = none → frames = []) :
    Valid id { s with doc := d', up := up', down := s.down ++ frames, order := s.order ++ new } := by
  have happend : ids (s.order ++ new) = ids s.order ++ ids new := by simp [ids]
  have hfresh : ∀ n ∈ ids new, n ∉ ids s.order := by
    intro n hn hold
    obtain ⟨⟨x, hx, hmem⟩, -⟩ := hids n hn
    obtain ⟨e, he, rfl⟩ := List.mem_map.mp hmem
    exact (hs.up x hx).2 e he hold
  refine ⟨htells, ?_, ?_, ?_, ?_, hs.madeHere, hs.apart, ?_, ?_, ?_, ?_, ?_⟩
  · intro o ho
    rcases List.mem_append.mp ho with ho | ho
    · exact hs.own o ho
    · exact hown o ho
  · show (ids (s.order ++ new)).Nodup
    rw [happend, List.nodup_append]
    refine ⟨hs.once, hnodup, fun n hn m hm heq => ?_⟩
    exact hfresh m hm (heq ▸ hn)
  · intro n hn
    rcases List.mem_append.mp (happend ▸ hn : n ∈ ids s.order ++ ids new) with hn | hn
    · exact hs.madeOrder n hn
    · obtain ⟨⟨x, hx, hmem⟩, -⟩ := hids n hn
      obtain ⟨e, he, rfl⟩ := List.mem_map.mp hmem
      exact hs.madeUp x hx e he
  · exact fun x hx => hs.madeUp x (hup.subset hx)
  · intro e he
    refine ⟨fun hmem => ?_, fun x hx => (hs.queued e he).2 x (hup.subset hx)⟩
    rcases List.mem_append.mp (happend ▸ hmem : e.id ∈ ids s.order ++ ids new) with hmem | hmem
    · exact (hs.queued e he).1 hmem
    · obtain ⟨⟨x, hx, hmem⟩, -⟩ := hids _ hmem
      exact (hs.queued e he).2 x hx hmem
  · intro x hx
    refine ⟨(hs.up x (hup.subset hx)).1, fun e he hmem => ?_⟩
    rcases List.mem_append.mp (happend ▸ hmem : e.id ∈ ids s.order ++ ids new) with hmem | hmem
    · exact (hs.up x (hup.subset hx)).2 e he hmem
    · exact (hids _ hmem).2 x hx (List.mem_map_of_mem he)
  · intro e he o ho hn
    rcases List.mem_append.mp ho with ho | ho
    · exact hs.unseen e he o ho hn
    · exact lt_of_le_of_lt hs.rev (rev_new htells o ho)
  · exact hs.rev.trans (by simp)
  · have hold := hs.link
    dsimp only
    cases hp : s.client.pipe with
    | none =>
      rw [hp] at hold
      rw [hold.1] at hup
      exact ⟨List.sublist_nil.mp hup, by simp [hold.2, hnone hp]⟩
    | some pipe => exact hlink pipe hp

end Session

/-! ### What the steps of a document put in the order -/

namespace Document

theorem outside_client (writer : String) : ∀ (changes : List C) (d : Document M C),
    ∀ c ∈ outside F W writer changes d, c.entry.client = s!"file:{writer}"
  | [], d => by simp [outside]
  | c :: changes, d => by
    rw [outside]
    rcases F.apply d.model c [] d.assets with ⟨r, model, assets⟩
    cases r with
    | error refused => exact outside_client writer changes _
    | ok c' =>
      intro c hc
      rcases List.mem_cons.mp hc with rfl | hc
      · rfl
      · exact outside_client writer changes _ c hc

variable {d : Document M C}

theorem tells_step (hF : F.RefusesClean) {h : List Stamp} (hd : d.core.tip.Tells h) (i : Input) :
    (d.step F W i).1.core.tip.Tells (h ++ (commits (d.acts F W i)).map (·.entry.stamp)) := by
  cases i with
  | saved rev =>
    rw [acts, commits, List.filterMap_cons_none rfl, List.filterMap_nil, List.map_nil,
      List.append_nil]
    exact hd
  | rebased file epoch =>
    rw [acts, commits, List.filterMap_cons_none rfl, List.filterMap_nil, List.map_nil,
      List.append_nil]
    exact hd.rebase file epoch
  | connected | message | left | fileChanged | save | saveWaits | closing =>
    exact (hd.puts (d.step_puts hF _ (by simp) (by simp)).2).1

/-- What one frame of a pipe comes to. -/
inductive Arrives (F : Format M C Q) (d : Document M C) (pipe : Nat) (frame : Frame ToDocument)
    (out : Document M C × List Effect) (cs : List (Commit M C)) : Prop
  | quiet (commits : cs = []) (calm : Calm d out) (words : words (heard pipe out.2) = [])
  | refused {seat : Seat} {client : String} {seq base : Nat} {body : Value}
      {reason : RefusedReason} {detail : Option String}
      (asks : frame = .message (.change seq base body)) (commits : cs = []) (calm : Calm d out)
      (words : words (heard pipe out.2) = [.refused seq reason detail])
      (sits : d.seats[pipe]? = some seat) (joined : seat.client = some client)
      (unseen : seat.viewer.canEdit = true → d.lastSeq client < seq)
  | joins {contract epoch rev : Nat} {client : String} {m : ToClient}
      (asks : frame = .message (.join contract client epoch rev)) (commits : cs = [])
      (joins : Joins F d pipe client epoch rev out) (answers : Answers F d client epoch rev m)
      (words : words (heard pipe out.2) = [m])
  | takes {seat : Seat} {client : String} {seq base : Nat} {body : Value} {c : Commit M C}
      (asks : frame = .message (.change seq base body)) (commits : cs = [c])
      (sits : d.seats[pipe]? = some seat) (joined : seat.client = some client)
      (canEdit : seat.viewer.canEdit = true) (unseen : d.lastSeq client < seq)
      (stamped : c.entry.client = client ∧ c.entry.seq = seq)
      (words : words (heard pipe out.2) = [.changed (changedOf F c.entry)])

theorem log_puts {c : Commit M C} {out : Document M C × List Effect} (h : Puts F W d [c] out) :
    out.1.log = d.log ++ [c.entry] := by
  obtain ⟨-, hcore⟩ := Run.single_iff.mp h.run
  exact congrArg Core.log hcore

theorem message_change {pipe seq base : Nat} {body : Value} {bytes : Bytes}
    (hframe : decode W bytes = some (.message (.change seq base body))) (hj : d.hasJoined pipe = true) :
    d.message F W pipe bytes = d.change F W pipe seq base body := by
  unfold message
  rw [hframe]
  simp only [hj]

theorem log_ne_append (log : List (Ordered C)) (c : Ordered C) : log ++ [c] ≠ log := by simp

theorem message_arrives (hF : F.RefusesClean) (d : Document M C) (pipe : Nat) {bytes : Bytes}
    {frame : Frame ToDocument} (hframe : decode W bytes = some frame) :
    Arrives F d pipe frame (d.step F W (.message pipe bytes)) (commits (d.acts F W (.message pipe bytes))) := by
  have hquiet : Calm d (d.message F W pipe bytes) →
      words (heard pipe (d.message F W pipe bytes).2) = [] →
      Arrives F d pipe frame (d.step F W (.message pipe bytes))
        (commits (d.acts F W (.message pipe bytes))) := by
    intro hcalm hwords
    exact .quiet (by rw [acts_message_calm hcalm.core]; rfl) hcalm hwords
  by_cases hchange : d.hasJoined pipe = true ∧ ∃ seq base body,
      frame = .message (.change seq base body)
  · obtain ⟨hj, seq, base, body, rfl⟩ := hchange
    have hmessage := message_change (F := F) hframe hj
    have hcases := d.change_cases (F := F) (W := W) hF pipe seq base body
    have hdecided := d.change_decided (F := F) (W := W) pipe seq base body
    have hcalm : (d.change F W pipe seq base body).1.log = d.log →
        Calm d (d.change F W pipe seq base body) := by
      intro hlog
      rcases hcases with h | h
      · exact h
      · obtain ⟨c, hc⟩ := h.puts
        exact absurd ((log_puts hc).symm.trans hlog) (log_ne_append _ _)
    rw [← hmessage] at hcases hdecided hcalm
    cases hdecided with
    | ignored hlog heffects => exact hquiet (hcalm hlog) (by rw [heffects]; rfl)
    | refused reason detail hsits hjoined hunseen hlog heffects =>
      have hwords : words (heard pipe (d.message F W pipe bytes).2) =
          [.refused seq reason detail] := by
        rw [heffects]
        simp [words, heard, refuse, sendTo, Frame.word]
      exact .refused rfl (by rw [acts_message_calm (hcalm hlog).core]; rfl) (hcalm hlog) hwords
        hsits hjoined hunseen
    | @taken seat client entry hsits hjoined hcan hunseen hlog hstamped heffects =>
      rcases hcases with h | h
      · have : (d.message F W pipe bytes).1.log = d.log := congrArg Core.log h.core
        exact absurd (hlog.symm.trans this) (log_ne_append _ _)
      · obtain ⟨c, hc⟩ := h.puts
        have hentry : c.entry = entry := by
          have := (log_puts hc).symm.trans hlog
          simpa using this
        have hmodel : (d.message F W pipe bytes).1.model = c.model := by
          obtain ⟨-, hcore⟩ := Run.single_iff.mp hc.run
          exact congrArg Core.model hcore
        refine .takes (c := c) rfl ?_ hsits hjoined hcan hunseen (hentry ▸ hstamped) ?_
        · have : d.acts F W (.message pipe bytes) = [c].map .put := by
            simp only [acts, log_puts hc, hmodel, List.drop_left, List.map_cons, List.map_nil]
          rw [this, commits_put]
        · show words (heard pipe (d.message F W pipe bytes).2) = _
          rw [words_heard heffects, hc.news, if_pos]
          · rfl
          · simp [seatAt, hsits, hjoined]
  · have hno := d.isRefusal_step (F := F) (W := W) (.message pipe bytes) (by
      intro pipe' bytes' seq base body heq hj hdecode
      obtain ⟨rfl, rfl⟩ := Input.message.inj heq
      rw [hframe] at hdecode
      exact hchange ⟨hj, seq, base, body, Option.some.inj hdecode⟩)
    rcases message_cases (W := W) hF d pipe bytes with h | ⟨_, _, _, _, hdecode, h⟩ |
      ⟨_, _, _, hdecode, h⟩
    · exact hquiet h ((words_heard hno pipe).trans (news_plain pipe h.plain))
    · obtain ⟨m, hm, hnews⟩ := news_joins h
      rw [hframe] at hdecode
      refine .joins (Option.some.inj hdecode) (by rw [acts_message_calm h.core]; rfl) h hm ?_
      show words (heard pipe (d.step F W (.message pipe bytes)).2) = _
      rw [words_heard hno]
      show news pipe (d.message F W pipe bytes).2 = _
      rw [hnews, if_pos rfl]
    · obtain ⟨seat, client, hseat, hclient, -⟩ := h.unseen
      rw [hframe] at hdecode
      refine absurd ⟨?_, _, _, _, Option.some.inj hdecode⟩ hchange
      simp [hasJoined, hseat, hclient]

/-- A pipe that did not speak hears of states and changes only. -/
theorem words_other (d : Document M C) (i : Input) {pipe : Nat}
    (hi : ∀ bytes, i ≠ .message pipe bytes) :
    words (heard pipe (d.step F W i).2) = news pipe (d.step F W i).2 := by
  by_cases hchange : ∃ q bytes seq base body, i = .message q bytes ∧ d.hasJoined q = true ∧
      decode W bytes = some (.message (.change seq base body))
  · obtain ⟨q, bytes, seq, base, body, rfl, hj, hdecode⟩ := hchange
    have hne : pipe ≠ q := fun h => hi bytes (h ▸ rfl)
    have hdecided := d.change_decided (F := F) (W := W) q seq base body
    rw [← message_change hdecode hj] at hdecided
    show words (heard pipe (d.message F W q bytes).2) = news pipe (d.message F W q bytes).2
    cases hdecided with
    | ignored _ heffects =>
      rw [heffects]
      rfl
    | refused reason detail _ _ _ _ heffects =>
      rw [heffects]
      simp [news, heard, refuse, sendTo, hne, words]
    | taken _ _ _ _ _ _ heffects => exact words_heard heffects pipe
  · refine words_heard (d.isRefusal_step i fun q bytes seq base body hq hj hdecode => ?_) pipe
    exact hchange ⟨q, bytes, seq, base, body, hq, hj, hdecode⟩

/-- What anything else does: none of its changes is the client's, and the client's pipe hears those
    changes and nothing more. -/
theorem others_step (hF : F.RefusesClean) {s : Session M C A} {i : Input} (hi : s.Others W id i) :
    (∀ c ∈ commits (s.doc.acts F W i), c.entry.client ≠ id) ∧
    ∀ pipe, s.client.pipe = some pipe → words (heard pipe (s.doc.step F W i).2) =
      if s.doc.seatAt pipe = some true then
        (commits (s.doc.acts F W i)).map fun c => .changed (changedOf F c.entry)
      else [] := by
  refine ⟨fun c hc => ?_, fun pipe hp => ?_⟩
  · cases i with
    | fileChanged file writer =>
      simp only [acts] at hc
      split at hc
      · simp [commits] at hc
      · split at hc
        · simp [commits] at hc
        · rw [commits_put] at hc
          rw [outside_client writer _ _ c hc]
          exact hi
    | message q bytes =>
      cases hframe : decode W bytes with
      | none =>
        have : s.doc.message F W q bytes = (s.doc, [.drop q]) := by
          unfold message
          rw [hframe]
        rw [acts_message_calm (by rw [this])] at hc
        simp [commits] at hc
      | some frame =>
        cases s.doc.message_arrives (F := F) hF q hframe with
        | quiet h | refused _ h | joins _ h => simp [h] at hc
        | takes _ h hsits hjoined _ _ hstamped =>
          rw [h] at hc
          obtain rfl := List.mem_singleton.mp hc
          rw [hstamped.1]
          exact fun heq => hi.2.1 _ hsits (heq ▸ hjoined)
    | connected | left | save | saved | saveWaits | rebased | closing =>
      simp [acts, commits] at hc
  · rw [s.doc.words_other i fun bytes heq => by subst heq; exact hi.1 hp]
    exact news_step hF s.doc i fun bytes heq => by subst heq; exact absurd hp hi.1

end Document

namespace Session

/-! ### Every step -/

theorem greatest_le_append (h h' : List Stamp) (client : String) : greatest h client ≤ greatest (h ++ h') client := by
  have hmax : ∀ (l : List Nat) (m : Nat), m ≤ l.foldl max m := by
    intro l
    induction l with
    | nil => simp
    | cons x l ih => exact fun m => (le_max_left m x).trans (ih (max m x))
  rw [greatest, greatest, seqsOf_append, List.foldl_append]
  exact hmax _ _

/-- Changes of others leave the last seq of a client. -/
theorem greatest_others {h h' : List Stamp} {client : String} (hno : ∀ t ∈ h', t.client ≠ client) :
    greatest (h ++ h') client = greatest h client := by
  have hnil : seqsOf h' client = [] := by
    rw [seqsOf, List.map_eq_nil_iff, List.filter_eq_nil_iff]
    intro t ht
    simpa using hno t (List.mem_of_mem_filter ht)
  rw [greatest, seqsOf_append, hnil, List.append_nil, greatest]

/-- The changes of one step lead on from what was in the order before it. -/
theorem leads_changes {order : List (Stamp × List Nat)}
    (hrevs : ∀ (i : Nat) t, (order.map (·.1))[i]? = some t → t.rev = i + 1) :
    ∀ (cs : List (Commit M C)) (before : List Stamp) (rev : Nat),
    order.map (·.1) = before ++ cs.map (·.entry.stamp) → rev ≤ before.length →
    Leads order true rev (cs.map fun c => .changed (changedOf F c.entry))
  | [], _, _, _, _ => trivial
  | c :: cs, before, rev, horder, hrev => by
    have hat : (order.map (·.1))[before.length]? = some c.entry.stamp := by simp [horder]
    have hrev' : c.entry.rev = before.length + 1 := hrevs _ _ hat
    have hlength : order.length = before.length + (cs.length + 1) := by
      have := congrArg List.length horder
      simpa using this
    refine ⟨rfl, ?_, ?_, List.mem_of_getElem? hat, ?_⟩
    · show rev < c.entry.rev
      omega
    · show c.entry.rev ≤ order.length
      omega
    · refine leads_changes hrevs cs (before ++ [c.entry.stamp]) c.entry.rev ?_ ?_
      · simp [horder]
      · simp [hrev']

theorem ids_others (cs : List (Commit M C)) : ids (cs.map fun c => (c.entry.stamp, ([] : List Nat))) = [] := by
  simp [ids]

theorem stamps_input (s : Session M C A) (i : Input) (edits : List Nat) :
    (s.order ++ (commits (s.doc.acts F W i)).map fun c : Commit M C =>
      (c.entry.stamp, edits)).map (·.1) =
      s.order.map (·.1) ++ (commits (s.doc.acts F W i)).map (·.entry.stamp) := by
  rw [List.map_append, List.map_map]
  rfl

variable {s : Session M C A}

/-- Anything else that happens to the document keeps a session. -/
theorem Valid.others (hF : F.RefusesClean) (hs : s.Valid id) {i : Input} (hi : s.Others W id i) :
    Valid id (s.input F W i []) := by
  obtain ⟨hclients, hheard⟩ := Document.others_step (F := F) hF hi
  have htells := Document.tells_step (F := F) (W := W) hF hs.tells i
  have hmap := stamps_input (F := F) (W := W) s i []
  rw [← hmap] at htells
  have hlast : (s.doc.step F W i).1.lastSeq id = s.doc.lastSeq id := by
    refine (htells.last id).trans (Eq.trans ?_ (hs.tells.last id).symm)
    rw [hmap]
    refine greatest_others fun t ht => ?_
    obtain ⟨c, hc, rfl⟩ := List.mem_map.mp ht
    exact hclients c hc
  refine hs.moves (List.Sublist.refl _) htells ?_ ?_ ?_ (fun pipe hp => ?_) fun hp => ?_
  · intro o ho
    obtain ⟨c, hc, rfl⟩ := List.mem_map.mp ho
    exact ⟨fun h => absurd rfl h, fun h => absurd h (hclients c hc)⟩
  · rw [ids_others]
    exact List.nodup_nil
  · intro n hn
    rw [ids_others] at hn
    simp at hn
  · have hl := hs.linked hp
    have hframes : (s.client.pipe.map (heard · (s.doc.step F W i).2)).getD [] =
        heard pipe (s.doc.step F W i).2 := by simp [hp]
    rw [hframes]
    refine hl.moves (hheard pipe hp) (List.Sublist.refl _) hlast.ge ?_ (rev_new htells) ?_ ?_ ?_ ?_
      ?_ ?_
    · intro seat' hseat'
      rcases s.doc.seat_step hseat' with ⟨rfl, -⟩ | ⟨bytes, _, _, _, _, _, rfl, -⟩ |
        ⟨seat, hseat, hviewer, hclient⟩
      · exact absurd hp hi
      · exact absurd hp hi.1
      · obtain ⟨hedit, h | h⟩ := hl.sits seat hseat
        · refine ⟨hviewer ▸ hedit, .inl ⟨hclient ▸ h.1, h.2.1, ?_⟩⟩
          rw [h.2.2, if_neg (by simp [Document.seatAt, hseat, h.1]), List.append_nil]
        · refine ⟨hviewer ▸ hedit, .inr ⟨hclient ▸ h.1, ?_⟩⟩
          rw [List.any_append, ← Bool.or_assoc, h.2, Bool.true_or]
    · split
      · rename_i hseat
        obtain ⟨seat, hsits, hsome⟩ := Option.map_eq_some_iff.mp hseat
        have hend : endRev s.client.rev (words s.down) ≤ s.order.length := hl.leads.endRev_le hs.rev
        obtain ⟨-, h | h⟩ := hl.sits seat hsits
        · simp [h.1] at hsome
        · rw [h.2]
          exact leads_changes htells.revs _ _ _ hmap (by simpa using hend)
      · trivial
    · rw [hlast]
      have hnone : (if s.doc.seatAt pipe = some true then
          (commits (s.doc.acts F W i)).map fun c => ToClient.changed (changedOf F c.entry)
          else []).filterMap (answerSeq id s.canEdit) = [] := by
        rw [List.filterMap_eq_nil_iff]
        intro m hm
        split at hm
        · obtain ⟨c, hc, rfl⟩ := List.mem_map.mp hm
          simp [answerSeq, changedOf, hclients c hc]
        · simp at hm
      rw [hnone, List.nil_append]
    · intro hcan q reason detail hmem
      rw [hlast]
      refine hl.refusals hcan q reason detail ?_
      rcases List.mem_append.mp hmem with hmem | hmem
      · exact hmem
      · split at hmem <;> simp at hmem
    · intro _ changed hmem
      split at hmem
      · obtain ⟨c, hc, heq⟩ := List.mem_map.mp hmem
        obtain rfl := ToClient.changed.inj heq
        exact hclients c hc
      · simp at hmem
    · intro _ _ _ _ _ _ _ _ hmem
      split at hmem <;> simp at hmem
    · intro o ho hne
      obtain ⟨c, -, rfl⟩ := List.mem_map.mp ho
      exact absurd rfl hne
  · simp [hp]

variable {pipe : Nat} {rest : List (Sent A)}

/-- Who sits at the client's pipe after one of its frames. -/
theorem Linked.sits_after (hl : Linked id s pipe) {x : Sent A} (hup : s.up = x :: rest) {bytes : Bytes}
    (hframe : decode W bytes = some x.frame) {ws : List ToClient}
    (hseats : (s.doc.step F W (.message pipe bytes)).1.seatAt pipe = some true →
      s.doc.seatAt pipe = some true ∨ ws.any isJoined = true) (hstill : s.doc.seatAt pipe = some false →
      (s.doc.step F W (.message pipe bytes)).1.seatAt pipe = some false → ws = []) :
    ∀ seat, (s.doc.step F W (.message pipe bytes)).1.seats[pipe]? = some seat →
      seat.viewer.canEdit = s.canEdit ∧
      (seat.client = none ∧ s.taken = false ∧ words s.down ++ ws = [] ∨
        seat.client = some id ∧ (s.taken || (words s.down ++ ws).any isJoined) = true) := by
  intro seat' hseat'
  have hat : (s.doc.step F W (.message pipe bytes)).1.seatAt pipe = some seat'.client.isSome := by
    simp [Document.seatAt, hseat']
  -- a seat with a client is one that the link's answer names
  have hanswered : s.doc.seatAt pipe = some true ∨ ws.any isJoined = true →
      (s.taken || (words s.down ++ ws).any isJoined) = true := by
    rintro (h | h)
    · obtain ⟨seat, hsits, hsome⟩ := Option.map_eq_some_iff.mp h
      obtain ⟨-, h | h⟩ := hl.sits seat hsits
      · simp [h.1] at hsome
      · rw [List.any_append, ← Bool.or_assoc, h.2, Bool.true_or]
    · simp [h]
  rcases s.doc.seat_step hseat' with ⟨heq, -⟩ | ⟨bytes', contract, client, epoch, rev, seat, heq,
    hjoin, hclient, hseat, hviewer⟩ | ⟨seat, hseat, hviewer, hclient⟩
  · simp at heq
  · obtain ⟨-, rfl⟩ := Input.message.inj heq
    have hid := (hl.asks x (hup ▸ List.mem_cons_self) contract client epoch rev
      (Option.some.inj (hframe.symm.trans hjoin))).1
    refine ⟨hviewer ▸ (hl.sits seat hseat).1, .inr ⟨hid ▸ hclient, hanswered (hseats ?_)⟩⟩
    rw [hat, hclient]
    rfl
  · obtain ⟨hedit, h | h⟩ := hl.sits seat hseat
    · have hfalse : s.doc.seatAt pipe = some false := by simp [Document.seatAt, hseat, h.1]
      refine ⟨hviewer ▸ hedit, .inl ⟨hclient ▸ h.1, h.2.1, ?_⟩⟩
      rw [h.2.2, hstill hfalse (by rw [hat, ← hclient, h.1]; rfl), List.append_nil]
    · exact ⟨hviewer ▸ hedit, .inr ⟨hclient ▸ h.1, hanswered (.inl (by
        simp [Document.seatAt, hseat, h.1]))⟩⟩

/-- The changes that an answer brings are all those of the order after the rev. -/
theorem catchup_covers (hs : s.Valid id) (hlength : s.doc.rev = s.order.length) {epoch : Nat} {changes : List Changed}
    (hc : s.doc.catchup F epoch s.client.rev = .missed changes) :
    (∀ changed ∈ changes, changed.stamp ∈ s.order.map (·.1) ∧ changed.rev ≤ s.doc.rev) ∧
    ∀ o ∈ s.order, s.client.rev < o.1.rev → o.1.rev ≤ s.doc.rev →
      ∃ changed ∈ changes, changed.stamp = o.1 := by
  have hstamps : changes.map Changed.stamp = (s.order.map (·.1)).drop s.client.rev := by
    unfold Document.catchup Document.logSince at hc
    split at hc
    · rename_i missed hmissed
      obtain rfl := Catchup.missed.inj hc
      split at hmissed
      · split at hmissed
        · rename_i hfirst
          split at hmissed
          · obtain rfl := Option.some.inj hmissed
            have hlog : s.doc.log.map Ordered.stamp =
                (s.order.map (·.1)).drop s.doc.firstRev := hs.tells.log
            rw [List.map_map]
            show (s.doc.log.drop _).map Ordered.stamp = _
            rw [List.map_drop, hlog, List.drop_drop]
            congr 1
            omega
          · simp at hmissed
        · simp at hmissed
      · simp at hmissed
    · simp at hc
  refine ⟨fun changed hmem => ?_, fun o ho hrev _ => ?_⟩
  · have hin : changed.stamp ∈ s.order.map (·.1) :=
      List.mem_of_mem_drop (hstamps ▸ List.mem_map_of_mem hmem)
    obtain ⟨o, ho, heq⟩ := List.mem_map.mp hin
    have : o.1.rev ≤ s.order.length := hs.rev_le ho
    refine ⟨hin, ?_⟩
    rw [heq] at this
    rw [hlength]
    exact this
  · obtain ⟨i, hi, rfl⟩ := List.mem_iff_getElem.mp ho
    have hat := hs.tells.revs i (s.order[i]).1 (by simp [hi])
    have hin : (s.order[i]).1 ∈ changes.map Changed.stamp := by
      rw [hstamps]
      refine List.mem_iff_getElem.mpr ⟨i - s.client.rev, by simp; omega, ?_⟩
      have : s.client.rev + (i - s.client.rev) = i := by omega
      simp [this]
    exact List.mem_map.mp hin

theorem filterMap_sublist {α β : Type} {f g : α → Option β} : ∀ (l : List α),
    (∀ x y, f x = some y → g x = some y) → (l.filterMap f).Sublist (l.filterMap g)
  | [], _ => .slnil
  | x :: l, h => by
    cases hf : f x with
    | none =>
      rw [List.filterMap_cons_none hf, List.filterMap_cons]
      split
      · exact filterMap_sublist l h
      · exact (filterMap_sublist l h).cons _
    | some y =>
      rw [List.filterMap_cons_some hf, List.filterMap_cons_some (h x y hf)]
      exact (filterMap_sublist l h).cons_cons _

/-- The document takes the next frame of the client. -/
theorem Valid.arrive (hF : F.RefusesClean) (hs : s.Valid id) {x : Sent A} {bytes : Bytes}
    (hp : s.client.pipe = some pipe) (hup : s.up = x :: rest) (hframe : decode W bytes = some x.frame) :
    Valid id { s.input F W (.message pipe bytes) (x.edits.map (·.id)) with up := rest } := by
  have hl := hs.linked hp
  have hx : x ∈ s.up := hup ▸ List.mem_cons_self
  have hsub : rest.Sublist s.up := hup ▸ List.sublist_cons_self x rest
  have htells := Document.tells_step (F := F) (W := W) hF hs.tells (.message pipe bytes)
  rw [← stamps_input s _ (x.edits.map (·.id))] at htells
  have hframes : (s.client.pipe.map (heard · (s.doc.step F W (.message pipe bytes)).2)).getD [] =
      heard pipe (s.doc.step F W (.message pipe bytes)).2 := by simp [hp]
  have hnone : s.client.pipe = none →
      (s.client.pipe.map (heard · (s.doc.step F W (.message pipe bytes)).2)).getD [] = [] := by
    simp [hp]
  -- a frame that puts nothing in the order: what comes back is its only trace
  have hkeeps : ∀ ws, commits (s.doc.acts F W (.message pipe bytes)) = [] →
      (s.doc.step F W (.message pipe bytes)).1.core = s.doc.core →
      words (heard pipe (s.doc.step F W (.message pipe bytes)).2) = ws →
      (∀ seat, (s.doc.step F W (.message pipe bytes)).1.seats[pipe]? = some seat →
        seat.viewer.canEdit = s.canEdit ∧
        (seat.client = none ∧ s.taken = false ∧ words s.down ++ ws = [] ∨
          seat.client = some id ∧ (s.taken || (words s.down ++ ws).any isJoined) = true)) →
      Leads s.order (s.taken || (words s.down).any isJoined)
        (endRev s.client.rev (words s.down)) ws →
      (∀ q ∈ ws.filterMap (answerSeq id s.canEdit),
        liveSeq s.canEdit (s.doc.lastSeq id) x = some q) →
      ws.length ≤ 1 → (∀ changed, .changed changed ∉ ws) →
      (s.canEdit = true → ∀ q reason detail, .refused q reason detail ∈ ws →
        s.doc.lastSeq id < q) →
      (∀ i name canEdit epoch rev seq peers catchup,
        .joined i name canEdit epoch rev seq peers catchup ∈ ws → ∀ o ∈ s.order, o.1.rev ≤ rev) →
      Valid id { s.input F W (.message pipe bytes) (x.edits.map (·.id)) with up := rest } := by
    intro ws hcommits hcore hwords hsits hleads hanswer hlength hchanged hrefused hjoined
    have hlast : (s.doc.step F W (.message pipe bytes)).1.lastSeq id = s.doc.lastSeq id :=
      congrArg (Core.lastSeq · id) hcore
    rw [hcommits] at htells
    simp only [input, hcommits]
    refine hs.moves hsub htells (by simp) List.nodup_nil (by simp [ids]) (fun q hq => ?_) hnone
    obtain rfl : pipe = q := Option.some.inj (hp.symm.trans hq)
    rw [hframes]
    refine hl.moves hwords hsub hlast.ge hsits (by simp) ?_ ?_ ?_ ?_ hjoined (by simp)
    · simpa using hleads
    · rw [hlast, hup, List.filterMap_cons]
      match ws, hlength with
      | [], _ =>
        rw [List.filterMap_nil, List.nil_append]
        split
        · exact List.Sublist.refl _
        · exact List.sublist_cons_self _ _
      | [w], _ =>
        cases hw : answerSeq id s.canEdit w with
        | none =>
          rw [List.filterMap_cons_none hw, List.filterMap_nil, List.nil_append]
          split
          · exact List.Sublist.refl _
          · exact List.sublist_cons_self _ _
        | some q =>
          rw [hanswer q (by simp [hw]), List.filterMap_cons_some hw]
          exact List.Sublist.refl _
    · intro hcan q reason detail hmem
      rw [hlast]
      rcases List.mem_append.mp hmem with hmem | hmem
      · exact hl.refusals hcan q reason detail hmem
      · exact hrefused hcan q reason detail hmem
    · exact fun _ changed hmem => absurd hmem (hchanged changed)
  cases s.doc.message_arrives (F := F) hF pipe hframe with
  | quiet hcommits hcalm hwords =>
    refine hkeeps [] hcommits hcalm.core hwords ?_ trivial (by simp) (by simp) (by simp) (by simp)
      (by simp)
    refine hl.sits_after hup hframe (fun h => .inl ?_) fun _ _ => rfl
    rcases hcalm.seats pipe with h' | h'
    · exact h'.symm.trans h
    · exact absurd (h.symm.trans h') (by simp)
  | @refused seat client seq base body reason detail hasks hcommits hcalm hwords hsits hclient
      hunseen =>
    have hseat : s.doc.seatAt pipe = some true := by simp [Document.seatAt, hsits, hclient]
    obtain ⟨hedit, ⟨hno, -⟩ | ⟨hid, htaken⟩⟩ := hl.sits seat hsits
    · simp [hclient] at hno
    obtain rfl : client = id := Option.some.inj (hclient.symm.trans hid)
    refine hkeeps _ hcommits hcalm.core hwords ?_ ⟨htaken, trivial⟩ ?_ le_rfl (by simp) ?_ (by simp)
    · exact hl.sits_after hup hframe (fun _ => .inl hseat) fun h => by simp [hseat] at h
    · intro q hq
      cases hcan : s.canEdit with
      | false => simp [answerSeq, hcan] at hq
      | true =>
        obtain rfl : q = seq := by simpa [answerSeq, hcan] using hq
        simp [liveSeq, hasks, hunseen (hedit.trans hcan)]
    · intro hcan q reason detail hmem
      obtain ⟨rfl, -⟩ := ToClient.refused.inj (List.mem_singleton.mp hmem)
      exact hunseen (hedit.trans hcan)
  | @joins contract epoch rev client m hasks hcommits hjoins hanswers hwords =>
    obtain ⟨seat, hsits, hsome⟩ := Option.map_eq_some_iff.mp hjoins.waited
    obtain ⟨-, ⟨-, htaken, hempty⟩ | ⟨hid, -⟩⟩ := hl.sits seat hsits
    swap
    · simp [hid] at hsome
    obtain ⟨-, hrev⟩ := hl.asks x hx contract client epoch rev hasks
    obtain rfl := hrev htaken
    have hlength : s.doc.rev = s.order.length := by
      have := hs.tells.rev
      rwa [List.length_map] at this
    obtain ⟨name, canEdit, peers, rfl⟩ := hanswers
    refine hkeeps _ hcommits hjoins.core hwords ?_ ?_ (by simp [answerSeq]) le_rfl (by simp)
      (by simp) ?_
    · refine hl.sits_after hup hframe (fun _ => .inr rfl) fun _ h => ?_
      rw [hjoins.seated] at h
      simp at h
    · rw [htaken, hempty]
      refine ⟨rfl, hlength ▸ hs.rev, hlength.le, fun changes hc => ?_, trivial⟩
      exact catchup_covers hs hlength hc
    · intro _ _ _ _ r _ _ _ hmem o ho
      have hr : r = s.doc.rev := by
        have := ToClient.joined.inj (List.mem_singleton.mp hmem)
        exact this.2.2.2.2.1
      rw [hr, hlength]
      exact hs.rev_le ho
  | @takes seat client seq base body c hasks hcommits hsits hclient hcan hunseen hstamped hwords =>
    have hseat : s.doc.seatAt pipe = some true := by simp [Document.seatAt, hsits, hclient]
    obtain ⟨hedit, ⟨hno, -⟩ | ⟨hid, htaken⟩⟩ := hl.sits seat hsits
    · simp [hclient] at hno
    obtain rfl : client = id := Option.some.inj (hclient.symm.trans hid)
    have hcan' : s.canEdit = true := hedit.symm.trans hcan
    have hlive : liveSeq s.canEdit (s.doc.lastSeq client) x = some seq := by
      simp [liveSeq, hasks, hcan', hunseen]
    -- the batch was the only thing that waited for an answer
    have hout : s.outstanding client = (words s.down).filterMap (answerSeq client s.canEdit) ++
        seq :: rest.filterMap (liveSeq s.canEdit (s.doc.lastSeq client)) := by
      rw [outstanding, hup, List.filterMap_cons_some hlive]
    have hquiet : (words s.down).filterMap (answerSeq client s.canEdit) = [] := by
      have := hl.single
      rw [hout, List.length_append, List.length_cons] at this
      exact List.eq_nil_of_length_eq_zero (by omega)
    have hlast : s.doc.lastSeq client ≤
        (s.doc.step F W (.message pipe bytes)).1.lastSeq client := by
      refine le_trans (hs.tells.last client).le (le_trans ?_ (htells.last client).ge)
      rw [stamps_input]
      exact greatest_le_append _ _ _
    have hapart : ∀ y ∈ rest, y.edits = [] := by
      have hpairs := hl.last
      rw [hup, List.pairwise_cons] at hpairs
      intro y hy
      rcases hpairs.1 y hy with h | h
      · simp [hlive] at h
      · exact h
    rw [hcommits] at htells
    simp only [input, hcommits]
    refine hs.moves hsub htells ?_ ?_ ?_ (fun q hq => ?_) hnone
    · intro o ho
      obtain rfl := List.mem_singleton.mp ho
      refine ⟨fun _ => hstamped.1, fun _ => ?_⟩
      show 0 < c.entry.seq
      omega
    · simpa [ids] using (hs.up x hx).1
    · intro n hn
      have hn' : n ∈ x.edits.map (·.id) := by simpa [ids] using hn
      refine ⟨⟨x, hx, hn'⟩, fun y hy hmem => ?_⟩
      simp [hapart y hy] at hmem
    · obtain rfl : pipe = q := Option.some.inj (hp.symm.trans hq)
      rw [hframes]
      refine hl.moves hwords hsub hlast ?_ (rev_new htells) ?_ ?_ ?_ ?_ ?_ ?_
      · exact hl.sits_after hup hframe (fun _ => .inl hseat) fun h => by simp [hseat] at h
      · rw [htaken]
        have hmap : (s.order ++ [c].map fun c => (c.entry.stamp, x.edits.map (·.id))).map (·.1) =
            s.order.map (·.1) ++ [c].map (·.entry.stamp) := by simp
        refine leads_changes htells.revs [c] _ _ hmap ?_
        simpa using hl.leads.endRev_le hs.rev
      · rw [hup, List.filterMap_cons_some hlive]
        have hanswer : answerSeq client s.canEdit (.changed (changedOf F c.entry)) = some seq := by
          simp [answerSeq, changedOf, hstamped.1, hstamped.2]
        rw [List.filterMap_cons_some hanswer]
        exact (filterMap_sublist rest fun y q => liveSeq_mono hlast).cons_cons _
      · intro _ q reason detail hmem
        rcases List.mem_append.mp hmem with hmem | hmem
        · have := List.filterMap_eq_nil_iff.mp hquiet _ hmem
          simp [answerSeq, hcan'] at this
        · simp at hmem
      · exact fun hno => absurd (hcan'.symm.trans hno) (by simp)
      · simp
      · intro o ho _
        obtain rfl := List.mem_singleton.mp ho
        exact ⟨_, List.mem_cons_self, rfl⟩

/-! ### The link and the editor -/

theorem Valid.attach (hs : s.Valid id) (pipe : Nat) (viewer : Viewer) :
    Valid id { s with
      doc := (s.doc.step F W (.connected pipe viewer)).1
      client := (s.client.attach id pipe).1
      up := (s.client.attach id pipe).2
      down := []
      taken := false
      canEdit := viewer.canEdit } := by
  refine ⟨hs.tells, hs.own, hs.once, hs.madeOrder, ?_, hs.madeHere, hs.apart, ?_, ?_, hs.unseen,
    hs.rev, ?_⟩
  · simp [Client.attach, Client.joinFrame]
  · intro e he
    exact ⟨(hs.queued e he).1, by simp [Client.attach, Client.joinFrame]⟩
  · simp [Client.attach, Client.joinFrame]
  · refine ⟨?_, ?_, trivial, ?_, ?_, by simp [words], by simp [words], List.pairwise_singleton _ _, ?_⟩
    · intro seat hseat
      have : seat = ⟨viewer, none, .null⟩ := by
        simpa [Document.step, Client.attach] using hseat.symm
      subst this
      exact ⟨rfl, .inl ⟨rfl, rfl, rfl⟩⟩
    · intro x hx contract client epoch rev hjoin
      obtain rfl := List.mem_singleton.mp hx
      simp only [Client.joinFrame, Frame.message.injEq, ToDocument.join.injEq] at hjoin
      exact ⟨hjoin.2.1.symm, fun _ => hjoin.2.2.2.symm⟩
    · exact List.length_filterMap_le _ _
    · simp [outstanding, words, Client.attach, Client.joinFrame, liveSeq]
    · exact fun e _ o _ _ => .inr ⟨rfl, rfl, by simp [words]⟩

theorem Valid.detach {s : Session M C A} (hs : s.Valid id) :
    Valid id { s with client := s.client.detach, up := [], down := [] } :=
  ⟨hs.tells, hs.own, hs.once, hs.madeOrder, by simp, hs.madeHere, hs.apart,
    fun e he => ⟨(hs.queued e he).1, by simp⟩, by simp, hs.unseen, hs.rev, ⟨rfl, rfl⟩⟩

/-- An editor that only rearranges what waits keeps a session. -/
theorem Valid.rearrange (hs : s.Valid id) (outbox : Outbox A) (held : Bool) {made : Nat} (hmade : s.made ≤ made)
    (hsent : ∀ e ∈ outbox.sent, ∃ e' ∈ s.client.outbox.sent, e'.id = e.id)
    (hhere : ∀ e ∈ outbox.unanswered, e.id < made) (hapart : (outbox.unanswered.map (·.id)).Nodup)
    (hqueued : ∀ e ∈ outbox.queued, s.made ≤ e.id ∨ ∃ e' ∈ s.client.outbox.queued, e'.id = e.id) :
    Valid id { s with client := { s.client with outbox, held }, made } := by
  refine ⟨hs.tells, hs.own, hs.once, fun n hn => (hs.madeOrder n hn).trans_le hmade,
    fun x hx e he => (hs.madeUp x hx e he).trans_le hmade, hhere, hapart, ?_, hs.up, ?_, hs.rev, ?_⟩
  · intro e he
    rcases hqueued e he with hnew | ⟨e', he', heq⟩
    · refine ⟨fun hmem => ?_, fun x hx hmem => ?_⟩
      · exact absurd (hs.madeOrder _ hmem) (by omega)
      · obtain ⟨e', he', heq⟩ := List.mem_map.mp hmem
        have := hs.madeUp x hx e' he'
        omega
    · rw [← heq]
      exact hs.queued e' he'
  · intro e he o ho hn
    obtain ⟨e', he', heq⟩ := hsent e he
    exact hs.unseen e' he' o ho (heq ▸ hn)
  · have hold := hs.link
    dsimp only
    cases hp : s.client.pipe with
    | none =>
      rw [hp] at hold
      exact hold
    | some pipe =>
      have hl := hs.linked hp
      refine ⟨hl.sits, hl.asks, hl.leads, hl.single, hl.waiting, hl.refusals, hl.reader, hl.last, ?_⟩
      intro e he o ho hn
      obtain ⟨e', he', heq⟩ := hsent e he
      exact hl.comes e' he' o ho (heq ▸ hn)

theorem Valid.edit (hs : s.Valid id) (change : A) (hclear : Clear.Early s) :
    Valid id ({ s with made := s.made + 1 }.sends
      ({ s.client with outbox := s.client.outbox.add ⟨s.made, change⟩ }.pull toValue)) := by
  have hadd : (s.client.outbox.add ⟨s.made, change⟩).unanswered =
      s.client.outbox.unanswered ++ [⟨s.made, change⟩] := by
    simp [Outbox.unanswered, Outbox.add]
  have hadded := hs.rearrange (s.client.outbox.add ⟨s.made, change⟩) s.client.held
    (Nat.le_succ s.made) (fun e he => ⟨e, he, rfl⟩) ?_ ?_ ?_
  · have := hadded.pull toValue fun hpipe hheld hwaiting => ?_
    · simpa [sends] using this
    · cases htaken : s.taken with
      | true => exact hadded.unanswered htaken hpipe hwaiting
      | false => exact hclear hpipe htaken hheld hwaiting
  · intro e he
    rw [hadd] at he
    rcases List.mem_append.mp he with he | he
    · exact (hs.madeHere e he).trans (Nat.lt_succ_self _)
    · obtain rfl := List.mem_singleton.mp he
      exact Nat.lt_succ_self _
  · rw [hadd, List.map_append, List.nodup_append]
    refine ⟨hs.apart, List.nodup_singleton _, fun n hn m hm => ?_⟩
    obtain ⟨e, he, rfl⟩ := List.mem_map.mp hn
    obtain rfl : m = s.made := by simpa using hm
    exact (hs.madeHere e he).ne
  · intro e he
    rcases List.mem_append.mp he with he | he
    · exact .inr ⟨e, he, rfl⟩
    · obtain rfl := List.mem_singleton.mp he
      exact .inl le_rfl

theorem moved_ids (f : A → Option A) (edits : List (Edit A)) :
    ((Outbox.move.moved f edits).map (·.id)).Sublist (edits.map (·.id)) := by
  induction edits with
  | nil => exact .slnil
  | cons e edits ih =>
    cases hf : f e.change with
    | none => simpa [Outbox.move.moved, hf] using ih.cons e.id
    | some a => simpa [Outbox.move.moved, hf] using ih.cons_cons e.id

theorem Valid.move (hs : s.Valid id) (f : A → Option A) :
    Valid id { s with client := { s.client with outbox := s.client.outbox.move f } } := by
  have hsub : (((s.client.outbox.move f).unanswered).map (·.id)).Sublist
      (s.client.outbox.unanswered.map (·.id)) := by
    rw [Outbox.unanswered, Outbox.unanswered, List.map_append, List.map_append]
    exact (moved_ids f _).append (moved_ids f _)
  refine hs.rearrange _ s.client.held le_rfl ?_ ?_ (hs.apart.sublist hsub) ?_
  · intro e he
    exact List.mem_map.mp ((moved_ids f _).subset (List.mem_map_of_mem he))
  · intro e he
    obtain ⟨e', he', heq⟩ := List.mem_map.mp (hsub.subset (List.mem_map_of_mem he))
    rw [← heq]
    exact hs.madeHere e' he'
  · intro e he
    exact .inr (List.mem_map.mp ((moved_ids f _).subset (List.mem_map_of_mem he)))

/-- A place or an asked asset goes on the link. -/
theorem Valid.aside (hs : s.Valid id) (hp : s.client.pipe = some pipe) {frame : Frame ToDocument}
    (hframe : frame.isAside) :
    Valid id { s with up := s.up ++ [⟨frame, []⟩] } := by
  have hl := hs.linked hp
  have hlive : ∀ last, liveSeq s.canEdit last (⟨frame, []⟩ : Sent A) = none := by
    intro last
    unfold liveSeq
    split
    · rename_i heq
      rw [show frame = _ from heq] at hframe
      simp [Frame.isAside] at hframe
    · rfl
  have hout : outstanding id { s with up := s.up ++ [⟨frame, []⟩] } = s.outstanding id := by
    simp [outstanding, hlive]
  refine ⟨hs.tells, hs.own, hs.once, hs.madeOrder, ?_, hs.madeHere, hs.apart, ?_, ?_, hs.unseen,
    hs.rev, ?_⟩
  · intro x hx e he
    rcases List.mem_append.mp hx with hx | hx
    · exact hs.madeUp x hx e he
    · obtain rfl := List.mem_singleton.mp hx
      simp at he
  · intro e he
    refine ⟨(hs.queued e he).1, fun x hx => ?_⟩
    rcases List.mem_append.mp hx with hx | hx
    · exact (hs.queued e he).2 x hx
    · obtain rfl := List.mem_singleton.mp hx
      simp
  · intro x hx
    rcases List.mem_append.mp hx with hx | hx
    · exact hs.up x hx
    · obtain rfl := List.mem_singleton.mp hx
      simp
  · simp only [hp]
    refine ⟨hl.sits, ?_, hl.leads, ?_, ?_, hl.refusals, hl.reader, ?_, hl.comes⟩
    · intro x hx contract client epoch rev hjoin
      rcases List.mem_append.mp hx with hx | hx
      · exact hl.asks x hx contract client epoch rev hjoin
      · obtain rfl := List.mem_singleton.mp hx
        rw [show frame = _ from hjoin] at hframe
        simp [Frame.isAside] at hframe
    · rw [hout]
      exact hl.single
    · rw [hout]
      exact hl.waiting
    · refine List.pairwise_append.mpr ⟨hl.last, List.pairwise_singleton _ _, fun x _ y hy => ?_⟩
      obtain rfl := List.mem_singleton.mp hy
      exact .inr rfl

/-! ### Every run -/

theorem valid_step (hF : F.RefusesClean) {s' : Session M C A} {e : Occurs A} (hs : s.Valid id) (hclear : s.Clear e)
    (hnext : Next F W toValue id s e s') : s'.Valid id := by
  cases hnext with
  | input hothers => exact hs.others hF hothers
  | attach => exact hs.attach _ _
  | detach => exact hs.detach
  | arrive hp hup hframe => exact hs.arrive hF hp hup hframe
  | deliver hdown => exact hs.deliver hdown hclear
  | edit => exact hs.edit _ hclear
  | pull =>
    refine hs.pull _ fun hpipe hheld hwaiting => ?_
    cases htaken : s.taken with
    | true => exact hs.unanswered htaken hpipe hwaiting
    | false => exact hclear hpipe htaken hheld hwaiting
  | hold =>
    exact hs.rearrange s.client.outbox _ le_rfl (fun e he => ⟨e, he, rfl⟩) hs.madeHere hs.apart
      fun e he => .inr ⟨e, he, rfl⟩
  | move => exact hs.move _
  | aside hp hframe => exact hs.aside hp hframe

theorem valid_start {file : Bytes} {epoch : Nat} {assets : Assets} {d : Document M C}
    (hopen : Document.openFile F file epoch assets = .ok d) :
    Valid id (start d : Session M C A) := by
  simp only [Document.openFile, bind, Except.bind] at hopen
  split at hopen
  · simp at hopen
  · obtain rfl := Except.ok.inj hopen
    exact ⟨.start _ rfl rfl rfl rfl, by simp [start], List.nodup_nil, by simp [start, ids],
      by simp [start], by simp [start, Client.start, Outbox.unanswered],
      by simp [start, Client.start, Outbox.unanswered], by simp [start, Client.start],
      by simp [start], by simp [start, Client.start], by simp [start, Client.start], ⟨rfl, rfl⟩⟩

end Session

/-- In every run of a client with its document, each edit is in the order at most once, and what is on
    its way to the document is not in the order, as long as no batch that the order has goes out again:
    not before the answer to a join came, and not after an answer that brings the whole content. -/
theorem edits_once (hF : F.RefusesClean) {file : Bytes} {epoch : Nat} {assets : Assets}
    {d : Document M C} (hopen : Document.openFile F file epoch assets = .ok d)
    {events : List (Occurs A)} {s : Session M C A}
    (hrun : Run (Guarded Session.Clear (Session.Next F W toValue id)) (.start d) events s) :
    (Session.ids s.order).Nodup ∧
      ∀ x ∈ s.up, ∀ e ∈ x.edits, e.id ∉ Session.ids s.order := by
  have hs : s.Valid id :=
    hrun.invariant (fun hs hnext => Session.valid_step hF hs hnext.1 hnext.2)
      (Session.valid_start hopen)
  exact ⟨hs.once, fun x hx => (hs.up x hx).2⟩

namespace Tally

def ana : Viewer := ⟨"ana", "ana", true⟩

/-- A client of the small format. -/
abbrev Next : Session Nat Nat Nat → Occurs Nat → Session Nat Nat Nat → Prop :=
  Session.Next format wire nulls "ana"

/-- A batch of one edit. -/
def batch (seq base n : Nat) : Sent Nat := ⟨.message (.change seq base (nulls n)), [⟨0, n⟩]⟩

theorem open_opened : Document.openFile format [0] 1 ⟨[]⟩ = .ok opened := by
  simp [Document.openFile, format, bind, Except.bind, pure, Except.pure, opened]

end Tally

/-- The document takes the batch, and the link is lost with the answer on it. -/
theorem edits_once_tally : ∃ events s,
    Run (Guarded Session.Clear Tally.Next) (.start Tally.opened) events s ∧
      Session.ids s.order = [0] ∧ ((Session.ids s.order).Nodup ∧
        ∀ x ∈ s.up, ∀ e ∈ x.edits, e.id ∉ Session.ids s.order) := by
  have r : Run (Guarded Session.Clear Tally.Next) (.start Tally.opened) _ _ :=
    Run.nil.snoc (a := Occurs.attach 1 Tally.ana) ⟨trivial, .attach⟩
  have r := r.snoc (a := Occurs.arrive [0, 0, 0, 0])
    ⟨trivial, .arrive (x := Client.joinFrame "ana" 0 0) rfl rfl rfl⟩
  have r := r.snoc (a := Occurs.deliver)
    ⟨fun _ _ _ _ _ _ _ _ _ _ _ _ he => absurd he List.not_mem_nil, .deliver rfl⟩
  have r := r.snoc (a := Occurs.edit 5) ⟨fun _ _ _ _ _ he => absurd he List.not_mem_nil, .edit⟩
  have r := r.snoc (a := Occurs.arrive [0, 1, 1, 0, 5])
    ⟨trivial, .arrive (x := Tally.batch 1 0 5) rfl rfl rfl⟩
  have r := r.snoc (a := Occurs.detach) ⟨trivial, .detach⟩
  exact ⟨_, _, r, by decide, edits_once Tally.refusesClean Tally.open_opened r⟩

/-- A client that held no rev when its batch was taken gets the whole content when it joins again. Its
    outbox still has the batch, and sends it with the next seq. -/
theorem edit_twice : Document.openFile Tally.format [0] 1 ⟨[]⟩ = .ok Tally.opened ∧
    ∃ events s, Run Tally.Next (.start Tally.opened) events s ∧ Session.ids s.order = [0, 0] ∧
      ¬ (Session.ids s.order).Nodup := by
  have r : Run Tally.Next (.start Tally.opened) _ _ :=
    Run.nil.snoc (a := .attach 1 Tally.ana) .attach
  have r := r.snoc (a := .arrive [0, 0, 0, 0])
    (.arrive (x := Client.joinFrame "ana" 0 0) rfl rfl rfl)
  have r := r.snoc (a := .deliver) (.deliver rfl)
  have r := r.snoc (a := .edit 5) .edit
  have r := r.snoc (a := .arrive [0, 1, 1, 0, 5]) (.arrive (x := Tally.batch 1 0 5) rfl rfl rfl)
  -- the answer is lost, and the client joins again from rev 0
  have r := r.snoc (a := .detach) .detach
  have r := r.snoc (a := .attach 2 Tally.ana) .attach
  have r := r.snoc (a := .arrive [0, 0, 1, 0])
    (.arrive (x := Client.joinFrame "ana" 1 0) rfl rfl rfl)
  have r := r.snoc (a := .deliver) (.deliver rfl)
  have r := r.snoc (a := .arrive [0, 1, 2, 1, 5]) (.arrive (x := Tally.batch 2 1 5) rfl rfl rfl)
  exact ⟨Tally.open_opened, _, _, r, by decide, by decide⟩

end Kodosi.Documents
