import Kodosi.Dosi.Store

/-! The end of a conversation's file: it is kept as long as each append finds room in front of the limit to which the
    file is read, and it is lost with the first append that does not. -/

namespace Kodosi.Dosi
open Kodosi.Lib

/-! ### Texts and their bytes -/

theorem utf8_append (s t : String) : utf8 (s ++ t) = utf8 s ++ utf8 t := by
  simp [utf8, String.toUTF8]

theorem prefix_of_utf8 {s t : String} (h : utf8 s <+: utf8 t) : s.toList <+: t.toList := by
  obtain ⟨rest, hrest⟩ := h
  refine List.isPrefix_of_utf8Encode_append_eq_utf8Encode ⟨rest.toArray⟩ ?_
  rw [String.utf8Encode_toList, String.utf8Encode_toList]
  refine ByteArray.ext (Array.ext' ?_)
  simpa [utf8, String.toUTF8] using hrest

theorem length_utf8_le {s t : String} (h : s.toList <+: t.toList) : (utf8 s).length ≤ (utf8 t).length := by
  obtain ⟨rest, hrest⟩ := h
  have ht : t = s ++ String.ofList rest := by
    refine String.toList_inj.mp ?_
    rw [String.toList_append, String.toList_ofList, hrest]
  rw [ht, utf8_append, List.length_append]
  exact Nat.le_add_right _ _

namespace Json

variable {json : Json}

/-! ### Reading what was written -/

variable (json) in
/-- The text of a file that holds these entries. -/
def textOf (entries : List DosiEntry) : List Char := entries.flatMap fun e => (json.write e).toList ++ ['\n']

theorem textOf_cons (e : DosiEntry) (es : List DosiEntry) :
    json.textOf (e :: es) = (json.write e).toList ++ '\n' :: json.textOf es := by
  rw [textOf, List.flatMap_cons, List.append_assoc]
  rfl

theorem logged_line (entries : List DosiEntry) : logged json.line entries = utf8 (String.ofList (json.textOf entries)) := by
  induction entries with
  | nil => rfl
  | cons e es ih =>
    have hnl : utf8 (String.ofList ['\n']) = [10] := by decide
    have htext : String.ofList (json.textOf (e :: es)) =
        json.write e ++ String.ofList ['\n'] ++ String.ofList (json.textOf es) := by
      refine String.toList_inj.mp ?_
      simp [textOf_cons]
    rw [logged_cons, ih, htext, utf8_append, utf8_append, hnl, line]

variable {e : DosiEntry}

theorem Fits.entriesOf_cons (h : json.Fits e) (rest : List Char) :
    json.entriesOf ((json.write e).toList ++ '\n' :: rest) = e :: json.entriesOf rest := by
  rw [entriesOf, linesFrom_feed h.lineFeed, List.nil_append, ended_eq h.carriageReturn, String.ofList_toList,
    List.filterMap_cons_some h.back]
  rfl

theorem Fits.entriesOf_last (h : json.Fits e) : json.entriesOf (json.write e).toList = [e] := by
  rw [entriesOf, linesFrom_end h.lineFeed, List.nil_append, if_neg h.filled, String.ofList_toList,
    List.filterMap_cons_some h.back]
  rfl

theorem Fits.entriesOf_torn (h : json.Fits e) {part : List Char} (hpart : part <+: (json.write e).toList)
    (hne : part ≠ (json.write e).toList) : json.entriesOf part = [] := by
  have hfeed : '\n' ∉ part := fun hmem => h.lineFeed (hpart.subset hmem)
  rw [entriesOf, linesFrom_end hfeed, List.nil_append]
  by_cases hnil : part = []
  · rw [if_pos hnil]
    rfl
  · rw [if_neg hnil, List.filterMap_cons_none (h.torn part hpart hne)]
    rfl

/-- A text that is cut is cut within its first line, or behind it. -/
theorem cut_cases {text first rest : List Char} (h : text <+: first ++ '\n' :: rest) :
    text <+: first ∨ ∃ more, text = first ++ '\n' :: more ∧ more <+: rest := by
  rcases List.prefix_or_prefix_of_prefix h (List.prefix_append first _) with hin | ⟨behind, rfl⟩
  · exact .inl hin
  · have hbehind : behind <+: '\n' :: rest := (List.prefix_append_right_inj first).mp h
    cases behind with
    | nil =>
      rw [List.append_nil]
      exact .inl (List.prefix_refl first)
    | cons c more =>
      obtain ⟨rfl, hmore⟩ := List.cons_prefix_cons.mp hbehind
      exact .inr ⟨more, rfl, hmore⟩

/-- Of a text that is cut the whole lines are read, the last of them also without its line feed. -/
theorem entriesOf_cut : ∀ {entries : List DosiEntry} {text : List Char}, (∀ e ∈ entries, json.Fits e) →
    text <+: json.textOf entries →
    ∃ j, json.entriesOf text = entries.take j ∧ json.textOf (entries.take j) <+: text ++ ['\n'] ∧
      (json.textOf entries <+: text ++ ['\n'] → entries.take j = entries)
  | [], text, _, htext => by
    rw [List.prefix_nil.mp htext]
    exact ⟨0, rfl, List.nil_prefix, fun _ => rfl⟩
  | e :: es, text, hfits, htext => by
    have he := hfits e List.mem_cons_self
    rw [textOf_cons] at htext ⊢
    rcases cut_cases htext with hin | ⟨more, rfl, hmore⟩
    · by_cases hwhole : text = (json.write e).toList
      · subst hwhole
        refine ⟨1, he.entriesOf_last, ?_, fun hall => ?_⟩
        · rw [List.take_succ_cons, List.take_zero, textOf_cons]
          exact List.prefix_refl _
        · have hes : '\n' :: json.textOf es <+: ['\n'] := (List.prefix_append_right_inj _).mp hall
          have hnil := List.prefix_nil.mp (List.cons_prefix_cons.mp hes).2
          cases es with
          | nil => rfl
          | cons b bs => simp [textOf_cons] at hnil
      · refine ⟨0, he.entriesOf_torn hin hwhole, List.nil_prefix, fun hall => absurd (hin.eq_of_length_le ?_) hwhole⟩
        have hle := hall.length_le
        simp only [List.length_append, List.length_cons, List.length_nil] at hle
        omega
    · obtain ⟨j, hread, hkept, hall⟩ := entriesOf_cut (fun x hx => hfits x (List.mem_cons_of_mem e hx)) hmore
      refine ⟨j + 1, ?_, ?_, fun hwhole => ?_⟩
      · rw [he.entriesOf_cons, hread, List.take_succ_cons]
      · rw [List.take_succ_cons, textOf_cons, List.append_assoc, List.cons_append, List.prefix_append_right_inj]
        exact List.cons_prefix_cons.mpr ⟨rfl, hkept⟩
      · rw [List.append_assoc, List.cons_append, List.prefix_append_right_inj] at hwhole
        rw [List.take_succ_cons, hall (List.cons_prefix_cons.mp hwhole).2]

/-! ### The limit of a read -/

variable {entries : List DosiEntry}

/-- A text that ends with a line feed. -/
theorem textOf_concat (h : entries ≠ []) : ∃ text, json.textOf entries = text ++ ['\n'] := by
  obtain ⟨es, e, rfl⟩ := List.eq_nil_or_concat entries |>.resolve_left h
  refine ⟨json.textOf es ++ (json.write e).toList, ?_⟩
  rw [textOf, List.concat_eq_append, List.flatMap_append, List.flatMap_singleton, List.append_assoc]
  rfl

/-- When at most a last line feed stands behind the limit, what is in front of it is a text that lacks no more. -/
theorem take_limit {n : Nat} (h : (logged json.line entries).length ≤ n + 1) :
    ∃ text : String, (logged json.line entries).take n = utf8 text ∧ json.textOf entries <+: text.toList ++ ['\n'] := by
  by_cases hle : (logged json.line entries).length ≤ n
  · refine ⟨String.ofList (json.textOf entries), ?_, ?_⟩
    · rw [List.take_of_length_le hle, logged_line]
    · rw [String.toList_ofList]
      exact List.prefix_append _ _
  · have hne : entries ≠ [] := by
      rintro rfl
      exact hle (Nat.zero_le n)
    obtain ⟨text, htext⟩ : ∃ text, json.textOf entries = text ++ ['\n'] := textOf_concat hne
    have hbytes : logged json.line entries = utf8 (String.ofList text) ++ [10] := by
      have hnl : utf8 (String.ofList ['\n']) = [10] := by decide
      rw [logged_line, htext, String.ofList_append, utf8_append, hnl]
    have hlength : (utf8 (String.ofList text)).length = n := by
      rw [hbytes, List.length_append, List.length_singleton] at h hle
      omega
    refine ⟨String.ofList text, ?_, ?_⟩
    · rw [hbytes, List.take_left' hlength]
    · rw [String.toList_ofList, htext]

/-- A read gives the entries that are whole in front of its limit, where one more byte counts for a last line feed. -/
theorem log_cut (hfits : ∀ e ∈ entries, json.Fits e) :
    ∃ j, (json.log (logged json.line entries)).entries = entries.take j ∧
      (logged json.line (entries.take j)).length ≤ MAX_LOG_BYTES + 1 ∧
      ((logged json.line entries).length ≤ MAX_LOG_BYTES + 1 → entries.take j = entries) := by
  cases hread : ofUtf8 ((logged json.line entries).take MAX_LOG_BYTES) with
  | none =>
    refine ⟨0, ?_, Nat.zero_le _, fun hle => ?_⟩
    · rw [log, hread, List.take_zero]
    · obtain ⟨text, htext, -⟩ := take_limit hle
      rw [htext, ofUtf8_utf8] at hread
      cases hread
  | some text =>
    have hbytes := ofUtf8_iff.mp hread
    have hin : text.toList <+: json.textOf entries := by
      have := prefix_of_utf8 (s := text) (t := String.ofList (json.textOf entries)) (by
        rw [← hbytes, ← logged_line]
        exact List.take_prefix _ _)
      rwa [String.toList_ofList] at this
    obtain ⟨j, hentries, hkept, hall⟩ := entriesOf_cut hfits hin
    refine ⟨j, ?_, ?_, fun hle => hall ?_⟩
    · rw [log, hread]
      exact hentries
    · have hnl : utf8 (String.ofList ['\n']) = [10] := by decide
      have hlength := length_utf8_le (s := String.ofList (json.textOf (entries.take j)))
        (t := text ++ String.ofList ['\n']) (by simpa using hkept)
      rw [logged_line]
      rw [utf8_append, hnl, List.length_append, List.length_singleton, ← hbytes, List.length_take] at hlength
      omega
    · obtain ⟨text', htext, hwhole⟩ := take_limit hle
      rw [htext, ofUtf8_utf8] at hread
      obtain rfl := Option.some.inj hread
      exact hwhole

theorem log_sequence (file : List UInt8) :
    (json.log file).sequence = ((json.log file).entries.getLast?.map (·.sequence)).getD 0 := by
  rw [log]
  cases ofUtf8 (file.take MAX_LOG_BYTES) <;> rfl

/-! ### One append -/

variable {batch : List DosiEntry}

theorem append_room (hfits : ∀ e ∈ entries ++ batch, json.Fits e)
    (hroom : (logged json.line (entries ++ batch)).length ≤ MAX_LOG_BYTES + 1) :
    json.append (logged json.line entries) batch = logged json.line (entries ++ batch) ∨
      json.append (logged json.line entries) batch = logged json.line (newest (entries ++ batch)) := by
  obtain ⟨j, hread, -, hall⟩ := log_cut hfits
  cases batch with
  | nil =>
    rw [List.append_nil]
    exact .inl rfl
  | cons b bs =>
    rw [append, List.isEmpty_cons, if_neg Bool.false_ne_true, ← logged_append]
    by_cases hcompact : COMPACT_BYTES < (logged json.line (entries ++ b :: bs)).length
    · rw [if_pos hcompact, compact, hread, hall hroom]
      exact .inr rfl
    · rw [if_neg hcompact]
      exact .inl rfl

/-- Without room the file is written again without its end. -/
theorem append_full (hfits : ∀ e ∈ entries ++ batch, json.Fits e) (hne : batch ≠ [])
    (hfull : MAX_LOG_BYTES + 1 < (logged json.line (entries ++ batch)).length) :
    ∃ j, j < (entries ++ batch).length ∧
      json.append (logged json.line entries) batch = logged json.line (newest ((entries ++ batch).take j)) := by
  obtain ⟨j, hread, hshort, -⟩ := log_cut hfits
  refine ⟨j, ?_, ?_⟩
  · by_contra hle
    rw [List.take_of_length_le (by omega)] at hshort
    omega
  · have hempty : batch.isEmpty = false := List.isEmpty_eq_false_iff.mpr hne
    have hcompact : COMPACT_BYTES < (logged json.line (entries ++ batch)).length :=
      lt_trans (by decide) hfull
    rw [append, hempty, if_neg Bool.false_ne_true, ← logged_append]
    simp only
    rw [if_pos hcompact, compact, hread]

end Json

/-! ### The end of a conversation -/

section Position

variable {α : Type} {p : α → Bool}

theorem rposition_append (as bs : List α) : rposition p (as ++ bs) = match rposition p bs with
    | some i => some (as.length + i)
    | none => rposition p as := by
  induction as with
  | nil =>
    rw [List.nil_append]
    cases hbs : rposition p bs with
    | none => rfl
    | some i =>
      simp only [List.length_nil, Nat.zero_add]
  | cons a as ih =>
    rw [List.cons_append, rposition, ih]
    cases rposition p bs with
    | none => rw [rposition]
    | some i =>
      rw [List.length_cons]
      simp only [Option.some.injEq]
      omega

theorem rposition_lt : ∀ {as : List α} {i : Nat}, rposition p as = some i → i < as.length
  | a :: as, i, h => by
    rw [rposition] at h
    cases hrest : rposition p as with
    | some k =>
      rw [hrest] at h
      obtain rfl := Option.some.inj h
      exact Nat.succ_lt_succ (rposition_lt hrest)
    | none =>
      rw [hrest] at h
      by_cases hp : p a = true
      · rw [if_pos hp] at h
        obtain rfl := Option.some.inj h
        exact Nat.succ_pos _
      · rw [if_neg hp] at h
        cases h

theorem rposition_none : ∀ {as : List α}, (∀ a ∈ as, p a = false) → rposition p as = none
  | [], _ => rfl
  | a :: as, h => by
    rw [rposition, rposition_none fun x hx => h x (List.mem_cons_of_mem a hx)]
    simp only
    rw [h a List.mem_cons_self, if_neg Bool.false_ne_true]

end Position

/-- Everything from the last beginning of a conversation on, or everything when none began. -/
def sinceBegin (entries : List DosiEntry) : List DosiEntry :=
  entries.drop ((rposition DosiEntry.isBegin entries).getD 0)

/-- The newest 2000 entries. -/
def lastItems (entries : List DosiEntry) : List DosiEntry := entries.drop (entries.length - MAX_ITEMS * 2)

/-- What is kept of everything that was appended. -/
structure Covers (appended kept : List DosiEntry) : Prop where
  suffix : kept <:+ appended
  enough : sinceBegin appended <:+ kept ∨ lastItems appended <:+ kept

/-- A log that has not lost its end. -/
structure EndKept (appended : List DosiEntry) (log : DosiLog) : Prop where
  covers : Covers appended log.entries
  sequence : log.sequence = (appended.getLast?.map (·.sequence)).getD 0

theorem sinceBegin_lt {entries : List DosiEntry} (h : entries ≠ []) :
    (rposition DosiEntry.isBegin entries).getD 0 < entries.length := by
  cases hp : rposition DosiEntry.isBegin entries with
  | none => exact List.length_pos_iff.mpr h
  | some i => exact rposition_lt hp

variable {appended kept : List DosiEntry}

theorem Covers.last (h : Covers appended kept) : kept.getLast? = appended.getLast? := by
  by_cases hnil : appended = []
  · subst hnil
    rw [List.suffix_nil.mp h.suffix]
  · have hpos := List.length_pos_iff.mpr hnil
    have hkept : kept ≠ [] := by
      rintro rfl
      rcases h.enough with hsince | hitems
      · have hlt := sinceBegin_lt hnil
        have hlen := hsince.length_le
        rw [sinceBegin, List.length_drop, List.length_nil] at hlen
        omega
      · have hlen := hitems.length_le
        rw [lastItems, List.length_drop, List.length_nil, MAX_ITEMS] at hlen
        omega
    obtain ⟨before, rfl⟩ := h.suffix
    rw [List.getLast?_append_of_ne_nil before hkept]

theorem Covers.append (h : Covers appended kept) (batch : List DosiEntry) :
    Covers (appended ++ batch) (kept ++ batch) := by
  obtain ⟨⟨before, rfl⟩, henough⟩ := h
  refine ⟨⟨before, by rw [List.append_assoc]⟩, ?_⟩
  rw [sinceBegin, rposition_append]
  cases hp : rposition DosiEntry.isBegin batch with
  | some i =>
    left
    simp only [Option.getD_some]
    rw [List.drop_append, Nat.add_sub_cancel_left, List.drop_of_length_le (Nat.le_add_right _ _), List.nil_append]
    exact (List.drop_suffix i batch).trans (List.suffix_append kept batch)
  | none =>
    simp only
    rcases henough with hsince | hitems
    · left
      have hle : (rposition DosiEntry.isBegin (before ++ kept)).getD 0 ≤ (before ++ kept).length := by
        cases hq : rposition DosiEntry.isBegin (before ++ kept) with
        | none => exact Nat.zero_le _
        | some i => exact (rposition_lt hq).le
      rw [List.drop_append_of_le_length hle]
      exact List.suffix_append_self_iff.mpr hsince
    · right
      have hmore : lastItems (before ++ kept ++ batch) <:+ lastItems (before ++ kept) ++ batch := by
        have hle : (before ++ kept).length - MAX_ITEMS * 2 ≤ (before ++ kept).length := Nat.sub_le _ _
        rw [lastItems, lastItems, ← List.drop_append_of_le_length hle]
        refine List.drop_suffix_drop_left _ ?_
        rw [show (before ++ kept ++ batch).length = (before ++ kept).length + batch.length from List.length_append]
        omega
      exact hmore.trans (List.suffix_append_self_iff.mpr hitems)

/-- Nothing is lost that has to be kept when a file is written again. -/
theorem Covers.newest (h : Covers appended kept) : Covers appended (Json.newest kept) := by
  have hsuffix : Json.newest kept <:+ kept := List.drop_suffix _ _
  refine ⟨hsuffix.trans h.suffix, ?_⟩
  by_cases hfew : (rposition DosiEntry.isBegin kept).getD 0 ≤ kept.length - MAX_ITEMS * 2
  · have hitems : Json.newest kept = lastItems kept := by rw [Json.newest, max_eq_right hfew, lastItems]
    by_cases hlong : kept.length ≤ MAX_ITEMS * 2
    · rw [hitems, lastItems, Nat.sub_eq_zero_of_le hlong, List.drop_zero]
      exact h.enough
    · right
      obtain ⟨before, rfl⟩ := h.suffix
      have hsplit : (before ++ kept).length - MAX_ITEMS * 2 = before.length + (kept.length - MAX_ITEMS * 2) := by
        rw [List.length_append]
        omega
      rw [hitems, lastItems, hsplit, List.drop_length_add_append]
      exact List.suffix_refl _
  · left
    obtain ⟨before, rfl⟩ := h.suffix
    cases hp : rposition DosiEntry.isBegin kept with
    | none =>
      rw [hp] at hfew
      exact absurd (Nat.zero_le _) hfew
    | some i =>
      rw [hp, Option.getD_some] at hfew
      rw [sinceBegin, rposition_append, hp, Json.newest, hp]
      simp only [Option.getD_some]
      rw [max_eq_left (not_le.mp hfew).le, List.drop_length_add_append]

namespace Json

variable {json : Json}

/-- A file of entries that are enough, and that a read takes in whole. -/
structure Holds (json : Json) (appended : List DosiEntry) (file : List UInt8) : Prop where
  fits : ∀ e ∈ appended, json.Fits e
  kept : ∃ kept, file = logged json.line kept ∧ Covers appended kept
  short : file.length ≤ MAX_LOG_BYTES + 1

theorem Holds.nil : Holds json [] [] where
  fits := fun _ he => absurd he List.not_mem_nil
  kept := ⟨[], rfl, List.suffix_refl _, .inl (List.suffix_refl _)⟩
  short := Nat.zero_le _

variable {appended : List DosiEntry} {file : List UInt8}

theorem Holds.endKept (h : Holds json appended file) : EndKept appended (json.log file) := by
  obtain ⟨hfits, ⟨kept, rfl, hcovers⟩, hshort⟩ := h
  obtain ⟨j, hread, -, hall⟩ := log_cut fun e he => hfits e (hcovers.suffix.subset he)
  rw [hall hshort] at hread
  refine ⟨by rwa [hread], ?_⟩
  rw [log_sequence, hread, hcovers.last]

/-- An append that finds room. -/
def Room (json : Json) (file : List UInt8) (batch : List DosiEntry) : Prop :=
  file.length + (logged json.line batch).length ≤ MAX_LOG_BYTES + 1

variable {batch : List DosiEntry}

theorem Holds.append (h : Holds json appended file) (hbatch : ∀ e ∈ batch, json.Fits e) (hroom : Room json file batch) :
    Holds json (appended ++ batch) (json.append file batch) := by
  obtain ⟨hfits, ⟨kept, rfl, hcovers⟩, -⟩ := h
  have hall : ∀ e ∈ appended ++ batch, json.Fits e := by
    intro e he
    rcases List.mem_append.mp he with he | he
    · exact hfits e he
    · exact hbatch e he
  have hmore := hcovers.append batch
  have hbytes : (logged json.line (kept ++ batch)).length ≤ MAX_LOG_BYTES + 1 := by
    rw [logged_append, List.length_append]
    exact hroom
  rcases append_room (fun e he => hall e (hmore.suffix.subset he)) hbytes with heq | heq
  · exact ⟨hall, ⟨_, heq, hmore⟩, heq ▸ hbytes⟩
  · refine ⟨hall, ⟨_, heq, hmore.newest⟩, ?_⟩
    obtain ⟨before, hbefore⟩ : newest (kept ++ batch) <:+ kept ++ batch := List.drop_suffix _ _
    rw [← hbefore, logged_append, List.length_append] at hbytes
    rw [heq]
    omega

/-- An append without room loses the last entry. -/
theorem Holds.full (h : Holds json appended file) (hbatch : ∀ e ∈ batch, json.Fits e)
    (hgrows : (appended ++ batch).Pairwise (·.sequence < ·.sequence)) (hfull : ¬Room json file batch) :
    ¬EndKept (appended ++ batch) (json.log (json.append file batch)) := by
  intro hkept
  obtain ⟨hfits, ⟨kept, rfl, hcovers⟩, hshort⟩ := h
  have hne : batch ≠ [] := by
    rintro rfl
    exact hfull hshort
  obtain ⟨front, z, rfl⟩ := (List.eq_nil_or_concat batch).resolve_left hne
  rw [List.concat_eq_append] at *
  have hall : ∀ e ∈ kept ++ (front ++ [z]), json.Fits e := by
    intro e he
    rcases List.mem_append.mp he with he | he
    · exact hfits e (hcovers.suffix.subset he)
    · exact hbatch e he
  obtain ⟨j, hj, heq⟩ := append_full hall hne (by
    rw [logged_append, List.length_append]
    exact not_le.mp hfull)
  -- What a read gives comes from the entries in front of the last one.
  have hfront : newest ((kept ++ (front ++ [z])).take j) ⊆ kept ++ front := by
    intro e he
    have hmem := (List.drop_suffix _ _).subset he
    rw [← List.append_assoc, List.length_append, List.length_singleton] at hj
    rw [← List.append_assoc, List.take_append_of_le_length (by omega)] at hmem
    exact List.mem_of_mem_take hmem
  have hfits : ∀ e ∈ newest ((kept ++ (front ++ [z])).take j), json.Fits e := fun e he => hall e (by
    rw [← List.append_assoc]
    exact List.mem_append_left _ (hfront he))
  obtain ⟨i, hread, -, -⟩ := log_cut hfits
  have hlast : z ∈ (json.log (json.append (logged json.line kept) (front ++ [z]))).entries := by
    refine List.mem_of_getLast? ?_
    rw [hkept.covers.last, ← List.append_assoc, List.getLast?_concat]
  rw [heq, hread] at hlast
  have hz : z ∈ appended ++ front := by
    rcases List.mem_append.mp (hfront (List.mem_of_mem_take hlast)) with hz | hz
    · exact List.mem_append_left _ (hcovers.suffix.subset hz)
    · exact List.mem_append_right _ hz
  rw [← List.append_assoc, List.pairwise_append] at hgrows
  exact lt_irrefl _ (hgrows.2.2 z hz z (List.mem_singleton.mpr rfl))

/-- Every append of a run finds room. -/
def Roomy (json : Json) (batches : List (List DosiEntry)) : Prop := Run.Allows json.Room json.append [] batches

variable {batches : List (List DosiEntry)}

theorem Holds.run : ∀ {appended : List DosiEntry} {file : List UInt8},
    Holds json appended file → (∀ batch ∈ batches, ∀ e ∈ batch, json.Fits e) →
    Run.Allows json.Room json.append file batches → ∀ n,
    EndKept (appended ++ (batches.take n).flatten) (json.log ((batches.take n).foldl json.append file)) := by
  induction batches with
  | nil =>
    intro appended file h _ _ n
    rw [List.take_nil, List.flatten_nil, List.append_nil]
    exact h.endKept
  | cons batch batches ih =>
    intro appended file h hfits hroomy n
    cases n with
    | zero =>
      rw [List.take_zero, List.flatten_nil, List.append_nil]
      exact h.endKept
    | succ n =>
      have hnext := h.append (hfits batch List.mem_cons_self) hroomy.1
      rw [List.take_succ_cons, List.flatten_cons, List.foldl_cons, ← List.append_assoc]
      exact ih hnext (fun b hb => hfits b (List.mem_cons_of_mem batch hb)) hroomy.2 n

theorem Holds.roomy : ∀ {appended : List DosiEntry} {file : List UInt8},
    Holds json appended file → (∀ batch ∈ batches, ∀ e ∈ batch, json.Fits e) →
    (appended ++ batches.flatten).Pairwise (·.sequence < ·.sequence) →
    (∀ n, EndKept (appended ++ (batches.take n).flatten) (json.log ((batches.take n).foldl json.append file))) →
    Run.Allows json.Room json.append file batches := by
  induction batches with
  | nil => exact fun _ _ _ _ => trivial
  | cons batch batches ih =>
    intro appended file h hfits hgrows hkept
    have hbatch := hfits batch List.mem_cons_self
    rw [List.flatten_cons, ← List.append_assoc] at hgrows
    have hroom : Room json file batch := by
      by_contra hfull
      have hone := hkept 1
      rw [List.take_succ_cons, List.take_zero, List.flatten_singleton] at hone
      exact h.full hbatch (List.pairwise_append.mp hgrows).1 hfull hone
    refine ⟨hroom, ih (h.append hbatch hroom) (fun b hb => hfits b (List.mem_cons_of_mem batch hb)) hgrows ?_⟩
    intro n
    have hmore := hkept (n + 1)
    rw [List.take_succ_cons, List.flatten_cons, List.foldl_cons, ← List.append_assoc] at hmore
    exact hmore

/-- A file always holds whole lines. -/
theorem filed_logged (hfits : ∀ batch ∈ batches, ∀ e ∈ batch, json.Fits e) :
    ∃ kept, json.filed batches = logged json.line kept ∧ ∀ e ∈ kept, json.Fits e := by
  induction batches using List.reverseRecOn with
  | nil => exact ⟨[], rfl, fun _ he => absurd he List.not_mem_nil⟩
  | append_singleton batches batch ih =>
    obtain ⟨kept, hfile, hkept⟩ := ih fun b hb => hfits b (List.mem_append_left _ hb)
    have hall : ∀ e ∈ kept ++ batch, json.Fits e := by
      intro e he
      rcases List.mem_append.mp he with he | he
      · exact hkept e he
      · exact hfits batch (List.mem_append_right _ List.mem_cons_self) e he
    have hnext : json.filed (batches ++ [batch]) = json.append (logged json.line kept) batch := by
      rw [filed, List.foldl_append, ← hfile]
      rfl
    by_cases hroom : (logged json.line (kept ++ batch)).length ≤ MAX_LOG_BYTES + 1
    · rcases append_room hall hroom with heq | heq
      · exact ⟨_, hnext.trans heq, hall⟩
      · exact ⟨_, hnext.trans heq, fun e he => hall e ((List.drop_suffix _ _).subset he)⟩
    · by_cases hnil : batch = []
      · subst hnil
        exact ⟨kept, hnext, hkept⟩
      · obtain ⟨j, -, heq⟩ := append_full hall hnil (not_le.mp hroom)
        exact ⟨_, hnext.trans heq, fun e he => hall e (List.mem_of_mem_take ((List.drop_suffix _ _).subset he))⟩

/-! ### Runs -/

/-- What JSON is for a beginning and for an answer of an agent. -/
def jsonText (e : DosiEntry) : String :=
  "\x7b\"sequence\":" ++ toString e.sequence ++ ",\"mine\":" ++ toString e.mine ++ ",\"record\":\x7b\"record\":" ++
    match e.record with
    | .begin conversation => "\"begin\",\"conversation\":\"" ++ conversation ++ "\"\x7d\x7d"
    | .item conversation ⟨id, turn, at', .text said live⟩ =>
      "\"item\",\"conversation\":\"" ++ conversation ++ "\",\"item\":\x7b\"id\":\"" ++ id ++ "\",\"turn\":\"" ++ turn ++
        "\",\"at\":" ++ toString at' ++ ",\"body\":\x7b\"kind\":\"text\",\"text\":\"" ++ said ++ "\",\"live\":" ++
        toString live ++ "\x7d\x7d\x7d\x7d"
    | _ => ""

/-- JSON for a number of known entries. -/
def jsonOf (entries : List DosiEntry) : Json := ⟨jsonText, fun text => entries.find? (jsonText · == text)⟩

variable {e : DosiEntry}

/-- A reader of known entries reads each of them back when no line goes on as another one. -/
theorem jsonOf_fits {entries : List DosiEntry}
    (hfree : ∀ x ∈ entries, ∀ e ∈ entries, (jsonText x).toList <+: (jsonText e).toList → x = e)
    (hclean : ∀ e ∈ entries, (jsonText e).toList ≠ [] ∧ '\n' ∉ (jsonText e).toList ∧ '\r' ∉ (jsonText e).toList)
    (he : e ∈ entries) : (jsonOf entries).Fits e where
  back := by
    have hfound : (entries.find? (jsonText · == jsonText e)).isSome :=
      List.find?_isSome.mpr ⟨e, he, beq_self_eq_true (jsonText e)⟩
    obtain ⟨x, hx⟩ := Option.isSome_iff_exists.mp hfound
    have hsame : jsonText x = jsonText e := eq_of_beq (List.find?_some hx :)
    have hprefix : (jsonText x).toList <+: (jsonText e).toList := by rw [hsame]
    obtain rfl := hfree x (List.mem_of_find?_eq_some hx) e he hprefix
    exact hx
  filled := (hclean e he).1
  lineFeed := (hclean e he).2.1
  carriageReturn := (hclean e he).2.2
  torn := by
    intro part hpart hne
    refine List.find?_eq_none.mpr fun x hx hsame => hne ?_
    have htext : (jsonText x).toList = part := by
      rw [eq_of_beq hsame, String.toList_ofList]
    have hprefix : (jsonText x).toList <+: (jsonText e).toList := by rwa [htext]
    obtain rfl := hfree x hx e he hprefix
    exact htext.symm

/-- A conversation's file keeps its end through every run whose appends find room, and, where the sequences grow, through
    no other run. -/
theorem end_kept (json : Json) (batches : List (List DosiEntry)) (hfits : ∀ batch ∈ batches, ∀ e ∈ batch, json.Fits e) :
    (Roomy json batches → ∀ n, EndKept (batches.take n).flatten (json.log (json.filed (batches.take n)))) ∧
      (batches.flatten.Pairwise (·.sequence < ·.sequence) →
        (∀ n, EndKept (batches.take n).flatten (json.log (json.filed (batches.take n)))) → Roomy json batches) :=
  ⟨fun hroomy n => Holds.nil.run hfits hroomy n, fun hgrows hkept => Holds.nil.roomy hfits hgrows hkept⟩

/-- A short conversation keeps its end. -/
theorem end_kept_short : Roomy (jsonOf [⟨10, true, .begin "c"⟩]) [[⟨10, true, .begin "c"⟩], []] ∧
    EndKept [⟨10, true, .begin "c"⟩] ((jsonOf [⟨10, true, .begin "c"⟩]).log
      ((jsonOf [⟨10, true, .begin "c"⟩]).filed [[⟨10, true, .begin "c"⟩], []])) := by
  have hfits : (jsonOf [⟨10, true, .begin "c"⟩]).Fits ⟨10, true, .begin "c"⟩ := by
    refine jsonOf_fits ?_ ?_ List.mem_cons_self
    · intro x hx e he _
      rw [List.mem_singleton.mp hx, List.mem_singleton.mp he]
    · intro e he
      rw [List.mem_singleton.mp he]
      decide
  have hroomy : Roomy (jsonOf [⟨10, true, .begin "c"⟩]) [[⟨10, true, .begin "c"⟩], []] := by
    refine ⟨?_, ?_, trivial⟩
    · unfold Room; decide
    · unfold Room; decide
  refine ⟨hroomy, (end_kept (jsonOf [⟨10, true, .begin "c"⟩]) [[⟨10, true, .begin "c"⟩], []] ?_).1 hroomy 2⟩
  intro batch hbatch e he
  rcases List.mem_cons.mp hbatch with rfl | hbatch
  · rw [List.mem_singleton.mp he]
    exact hfits
  · rw [List.mem_singleton.mp hbatch] at he
    exact absurd he List.not_mem_nil

/-! ### A long conversation -/

def longText (length : Nat) : String := String.ofList (List.replicate length 'a')

/-- An answer as long as an item may hold it. -/
def answer (k : Nat) : DosiEntry := ⟨k, true, .item "c" ⟨"i", "t", 0, .text (longText (256 * 1024)) false⟩⟩

/-- A conversation with forty long answers. -/
def longConversation : List DosiEntry := ⟨10, true, .begin "c"⟩ :: (List.range 40).map fun k => answer (11 + k)

theorem length_le_utf8 (s : String) : s.toList.length ≤ (utf8 s).length := by
  have h : ∀ cs : List Char, cs.length ≤ (utf8 (String.ofList cs)).length := by
    intro cs
    induction cs with
    | nil => exact Nat.zero_le _
    | cons c cs ih =>
      have hcons : String.ofList (c :: cs) = String.ofList [c] ++ String.ofList cs := by
        rw [← String.ofList_append, List.singleton_append]
      have hpos := c.utf8Size_pos
      have hone : (utf8 (String.ofList [c])).length = c.utf8Size := by
        simp [utf8, String.toUTF8, List.utf8Encode_singleton]
      rw [hcons, utf8_append, List.length_append, List.length_cons, hone]
      omega
  simpa using h s.toList

theorem mem_longText {length : Nat} {c : Char} (h : c ∈ (longText length).toList) : c = 'a' := by
  rw [longText, String.toList_ofList] at h
  exact List.eq_of_mem_replicate h

theorem length_longText (length : Nat) : (longText length).toList.length = length := by
  rw [longText, String.toList_ofList, List.length_replicate]

theorem mem_longConversation (he : e ∈ longConversation) :
    e = ⟨10, true, .begin "c"⟩ ∨ ∃ k < 40, e = answer (11 + k) := by
  rcases List.mem_cons.mp he with rfl | he
  · exact .inl rfl
  · obtain ⟨k, hk, rfl⟩ := List.mem_map.mp he
    exact .inr ⟨k, List.mem_range.mp hk, rfl⟩

/-- The sequences of the conversation have two digits each. -/
theorem digits : ∀ n < 51, 10 ≤ n → (toString n).toList.length = 2 ∧ '\n' ∉ (toString n).toList ∧ '\r' ∉ (toString n).toList ∧
    ∀ m < 51, toString m = toString n → m = n := by
  decide +kernel

theorem sequence_longConversation (he : e ∈ longConversation) : 10 ≤ e.sequence ∧ e.sequence < 51 := by
  rcases mem_longConversation he with rfl | ⟨k, hk, rfl⟩
  · decide
  · simp only [answer]
    omega

theorem jsonText_head (e : DosiEntry) : ∃ rest, (jsonText e).toList =
    "\x7b\"sequence\":".toList ++ ((toString e.sequence).toList ++ rest) := by
  simp only [jsonText, String.toList_append, List.append_assoc]
  exact ⟨_, rfl⟩

theorem free_longConversation : ∀ x ∈ longConversation, ∀ e ∈ longConversation,
    (jsonText x).toList <+: (jsonText e).toList → x = e := by
  intro x hx e he hprefix
  have hsequence : x.sequence = e.sequence := by
    obtain ⟨hx10, hx51⟩ := sequence_longConversation hx
    obtain ⟨he10, he51⟩ := sequence_longConversation he
    obtain ⟨xs, hxs⟩ := jsonText_head x
    obtain ⟨es, hes⟩ := jsonText_head e
    rw [hxs, hes, List.prefix_append_right_inj] at hprefix
    obtain ⟨more, hmore⟩ := hprefix
    rw [List.append_assoc] at hmore
    have hlength : (toString x.sequence).toList.length = (toString e.sequence).toList.length := by
      rw [(digits _ hx51 hx10).1, (digits _ he51 he10).1]
    have hsame := String.toList_inj.mp (List.append_inj hmore hlength).1
    exact (digits _ he51 he10).2.2.2 _ hx51 hsame
  rcases mem_longConversation hx with rfl | ⟨k, hk, rfl⟩ <;> rcases mem_longConversation he with rfl | ⟨i, hi, rfl⟩
  · rfl
  · simp only [answer] at hsequence
    omega
  · simp only [answer] at hsequence
    omega
  · simp only [answer] at hsequence
    rw [hsequence]

theorem clean_longConversation : ∀ e ∈ longConversation,
    (jsonText e).toList ≠ [] ∧ '\n' ∉ (jsonText e).toList ∧ '\r' ∉ (jsonText e).toList := by
  intro e he
  obtain ⟨h10, h51⟩ := sequence_longConversation he
  obtain ⟨-, hfeed, hreturn, -⟩ := digits _ h51 h10
  refine ⟨?_, ?_⟩
  · obtain ⟨rest, hrest⟩ := jsonText_head e
    rw [hrest]
    exact List.cons_ne_nil _ _
  · rcases mem_longConversation he with rfl | ⟨k, hk, rfl⟩
    · decide
    · have hsaid : '\n' ∉ (longText (256 * 1024)).toList ∧ '\r' ∉ (longText (256 * 1024)).toList :=
        ⟨fun h => absurd (mem_longText h) (by decide), fun h => absurd (mem_longText h) (by decide)⟩
      simp only [answer] at hfeed hreturn ⊢
      generalize longText (256 * 1024) = said at hsaid
      have htrue : '\n' ∉ (toString true).toList ∧ '\r' ∉ (toString true).toList := by decide
      have hfalse : '\n' ∉ (toString false).toList ∧ '\r' ∉ (toString false).toList := by decide
      have hzero : '\n' ∉ (toString (0 : Int)).toList ∧ '\r' ∉ (toString (0 : Int)).toList := by decide
      simp only [jsonText, String.toList_append, List.mem_append, not_or, hfeed, hreturn, hsaid, htrue, hfalse, hzero,
        not_false_eq_true, and_true]
      simp

theorem answer_long (json : List DosiEntry) (k : Nat) : 256 * 1024 ≤ ((jsonOf json).line (answer k)).length := by
  have hle := length_le_utf8 (jsonText (answer k))
  have hlong : 256 * 1024 ≤ (jsonText (answer k)).toList.length := by
    have htext := length_longText (256 * 1024)
    simp only [jsonText, answer, String.toList_append, List.length_append, htext]
    omega
  rw [line, List.length_append]
  exact (hlong.trans hle).trans (Nat.le_add_right _ _)

/-- Forty long answers do not fit into what a read takes. -/
theorem longConversation_long : MAX_LOG_BYTES + 1 < (logged (jsonOf longConversation).line longConversation).length := by
  have hall : ∀ ks : List Nat, ks.length * (256 * 1024) ≤
      (logged (jsonOf longConversation).line (ks.map fun k => answer (11 + k))).length := by
    intro ks
    induction ks with
    | nil => exact Nat.zero_le _
    | cons k ks ih =>
      rw [List.map_cons, logged_cons, List.length_append, List.length_cons, Nat.succ_mul, Nat.add_comm]
      exact Nat.add_le_add (answer_long longConversation (11 + k)) ih
  have h40 := hall (List.range 40)
  have hcons : logged (jsonOf longConversation).line longConversation = _ :=
    logged_cons ⟨10, true, .begin "c"⟩ ((List.range 40).map fun k => answer (11 + k))
  rw [List.length_range] at h40
  rw [hcons, List.length_append]
  exact (lt_of_lt_of_le (by decide) h40).trans_le (Nat.le_add_left _ _)

theorem fits_longConversation : ∀ batch ∈ longConversation.map ([·]), ∀ e ∈ batch, (jsonOf longConversation).Fits e := by
  intro batch hbatch e he
  obtain ⟨x, hx, rfl⟩ := List.mem_map.mp hbatch
  obtain rfl := List.mem_singleton.mp he
  exact jsonOf_fits free_longConversation clean_longConversation hx

/-- The newest of forty long answers are lost. -/
theorem end_lost : ¬EndKept (longConversation.map ([·])).flatten
    ((jsonOf longConversation).log ((jsonOf longConversation).filed (longConversation.map ([·])))) := by
  intro hkept
  obtain ⟨kept, hfile, hkeptFits⟩ : ∃ kept, (jsonOf longConversation).filed (longConversation.map ([·])) =
      logged (jsonOf longConversation).line kept ∧ ∀ e ∈ kept, (jsonOf longConversation).Fits e :=
    filed_logged fits_longConversation
  have hall : longConversation <:+ ((jsonOf longConversation).log (logged (jsonOf longConversation).line kept)).entries := by
    have hflat : (longConversation.map ([·])).flatten = longConversation := List.flatMap_singleton' _
    rw [hflat, hfile] at hkept
    have hsince : sinceBegin longConversation = longConversation := by
      have hnone : rposition DosiEntry.isBegin ((List.range 40).map fun k => answer (11 + k)) = none :=
        rposition_none fun e he => by
          obtain ⟨k, -, rfl⟩ := List.mem_map.mp he
          rfl
      rw [sinceBegin, longConversation, rposition, hnone]
      rfl
    have hitems : lastItems longConversation = longConversation := by
      have hlength : longConversation.length = 41 := by
        rw [longConversation, List.length_cons, List.length_map, List.length_range]
      rw [lastItems, hlength]
      rfl
    rcases hkept.covers.enough with h | h
    · rwa [hsince] at h
    · rwa [hitems] at h
  obtain ⟨j, hread, hshort, -⟩ := log_cut hkeptFits
  rw [hread] at hall
  obtain ⟨before, hbefore⟩ := hall
  rw [← hbefore, logged_append, List.length_append] at hshort
  have hlong := longConversation_long
  omega

end Json

end Kodosi.Dosi
