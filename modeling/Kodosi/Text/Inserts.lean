import Kodosi.Text.Built

/-! Inserting into a slice: where it cannot stop short, and the open sides that it keeps. -/

namespace Kodosi.Text

open Lib

variable {S : Schema} {lo hi n m k distance : Nat} {node first last : Node} {parent : Option Node}
  {nodes out before after rest left right insert : List Node} {openStart openEnd : Int}

/-! ### Joining two fragments -/

/-- Joining behind a fragment leaves its open left side. -/
theorem append_opens (h : Opens n left) : Opens n (Fragment.append left right) := by
  cases n with
  | zero => trivial
  | succ n =>
    cases left with
    | nil => exact h.elim
    | cons first rest =>
      have hsize := opens_le h
      unfold Fragment.append
      split_ifs with hright hleft
      · exact h
      · omega
      · rcases List.eq_nil_or_concat rest with rfl | ⟨init, last, rfl⟩
        · simp only [List.getLast?_singleton]
          cases right with
          | nil => exact absurd rfl hright
          | cons next more =>
            dsimp only
            rw [if_neg (by simp [h.1.not_isText])]
            exact h
        · rw [List.concat_eq_append, ← List.cons_append]
          simp only [List.getLast?_concat, List.dropLast_concat]
          cases right with
          | nil => exact absurd rfl hright
          | cons next more =>
            dsimp only
            split
            · exact h
            · exact h

theorem Steady.append {P : Node → Prop} (hP : Steady P) (hleft : Everywhere P left) (hright : Everywhere P right) :
    Everywhere P (Fragment.append left right) := by
  unfold Fragment.append
  split_ifs with hr hl
  · exact hleft
  · exact hright
  · rcases List.eq_nil_or_concat left with rfl | ⟨init, last, rfl⟩
    · exact everywhere_append.mpr ⟨hleft, hright⟩
    · cases right with
      | nil => exact absurd rfl hr
      | cons next more =>
        rw [List.concat_eq_append] at hleft ⊢
        simp only [List.getLast?_concat, List.dropLast_concat]
        obtain ⟨hinit, hlast, -⟩ := everywhere_append.mp hleft
        split
        next hjoin =>
          have htext := (Bool.and_eq_true_iff.mp hjoin).1
          exact everywhere_append.mpr ⟨hinit, ⟨hP.withUnits _ hlast.here htext, trivial⟩, hright.2⟩
        next => exact everywhere_append.mpr ⟨hleft, hright⟩

/-- No text before a fragment is like the inner node that it starts with. -/
def Apart (left right : List Node) : Prop :=
  ∀ last ∈ left.getLast?, ∀ first ∈ right.head?, first.Inner → last.isText = true → last.sameMarkup first = false

theorem apart_of_built (hleft : Built S left) (hright : Built S right) : Apart left right := by
  intro last hlast first hfirst hinner htext
  have hl := everywhere_iff.mp hleft last (List.mem_of_getLast? hlast)
  have hr := everywhere_iff.mp hright first (List.mem_of_head? hfirst)
  exact (not_sameMarkup hr hl hinner htext).2

/-- Joining before a fragment leaves its open right side. -/
theorem append_closes (hapart : Apart left right) (h : Closes n right) : Closes n (Fragment.append left right) := by
  cases n with
  | zero => trivial
  | succ n =>
    have hsize := closes_le h
    obtain ⟨init, last, rfl, hinner, hcloses⟩ := closes_succ.mp h
    have hkept : ∀ front : List Node, Closes (n + 1) (front ++ [last]) := fun front =>
      closes_succ.mpr ⟨front, last, rfl, hinner, hcloses⟩
    unfold Fragment.append
    rw [if_neg (by omega)]
    split_ifs with hl
    · exact h
    · rcases List.eq_nil_or_concat left with rfl | ⟨front, edge, rfl⟩
      · exact h
      · rw [List.concat_eq_append] at hapart ⊢
        simp only [List.getLast?_concat, List.dropLast_concat]
        cases init with
        | nil =>
          rw [List.nil_append]
          dsimp only
          split
          next hjoin =>
            obtain ⟨htext, hsame⟩ := Bool.and_eq_true_iff.mp hjoin
            rw [hapart edge List.getLast?_concat last rfl hinner htext] at hsame
            cases hsame
          next => exact hkept _
        | cons next more =>
          rw [List.cons_append]
          dsimp only
          split
          · rw [← List.cons_append, ← List.append_assoc]
            exact hkept _
          · rw [← List.cons_append, ← List.append_assoc]
            exact hkept _

/-! ### Cutting beside a side -/

/-- A cut that ends behind the first node keeps it. -/
theorem cut_first (hpos : 0 < first.nodeSize) (hk : first.nodeSize ≤ k)
    (h : Fragment.cut (first :: rest) 0 k = .ok out) : ∃ tail, out = first :: tail := by
  unfold Fragment.cut cutWith at h
  by_cases hall : 0 = 0 ∧ k = Fragment.size (first :: rest)
  · rw [if_pos hall] at h
    exact ⟨rest, (Except.ok.inj h).symm⟩
  · rw [if_neg hall, if_pos (by omega)] at h
    unfold cutFrom at h
    rw [if_neg (by omega), if_pos (by omega), if_neg (by omega)] at h
    obtain ⟨kept, hkept, h⟩ := bind_ok h
    obtain rfl := Except.ok.inj hkept
    obtain ⟨tail, -, h⟩ := bind_ok h
    exact ⟨tail, (Except.ok.inj h).symm⟩

theorem cutFrom_last {p : Nat} (hpos : 0 < last.nodeSize) (hlo : lo ≤ p + Fragment.size before)
    (hhi : hi = p + Fragment.size before + last.nodeSize)
    (h : cutFrom (before ++ [last]) p lo hi = .ok out) : ∃ front, out = front ++ [last] := by
  induction before generalizing p out with
  | nil =>
    rw [Fragment.size, Nat.add_zero] at hlo hhi
    rw [List.nil_append] at h
    unfold cutFrom at h
    rw [if_neg (by omega), if_pos (by omega), if_neg (by omega)] at h
    obtain ⟨kept, hkept, h⟩ := bind_ok h
    obtain rfl := Except.ok.inj hkept
    obtain ⟨tail, htail, h⟩ := bind_ok h
    obtain rfl := cutFrom_done (by omega) htail
    exact ⟨[], (Except.ok.inj h).symm⟩
  | cons child before ih =>
    rw [Fragment.size, ← Nat.add_assoc] at hlo hhi
    rw [List.cons_append] at h
    unfold cutFrom at h
    rw [if_neg (by omega)] at h
    by_cases hstart : lo < p + child.nodeSize
    · rw [if_pos hstart] at h
      obtain ⟨kept, -, h⟩ := bind_ok h
      obtain ⟨tail, htail, h⟩ := bind_ok h
      obtain ⟨front, rfl⟩ := ih hlo hhi htail
      exact ⟨kept :: front, (Except.ok.inj h).symm⟩
    · rw [if_neg hstart] at h
      exact ih hlo hhi h

/-- A cut that starts before the last node keeps it. -/
theorem cut_last (hpos : 0 < last.nodeSize) (hlo : lo ≤ Fragment.size before)
    (h : Fragment.cutEnd (before ++ [last]) lo = .ok out) : ∃ front, out = front ++ [last] := by
  have hsize : Fragment.size (before ++ [last]) = Fragment.size before + last.nodeSize := by
    rw [Fragment.size_append, Fragment.size, Fragment.size, Nat.add_zero]
  unfold Fragment.cutEnd Fragment.cut cutWith at h
  by_cases hall : lo = 0 ∧ Fragment.size (before ++ [last]) = Fragment.size (before ++ [last])
  · rw [if_pos hall] at h
    exact ⟨before, (Except.ok.inj h).symm⟩
  · rw [if_neg hall, if_pos (by omega)] at h
    exact cutFrom_last (p := 0) hpos (by omega) (by omega) h

/-- What is before a place between two nodes or inside a text is as open to the left as it all is. -/
theorem cut_opens (hopens : Opens n nodes) (hfirst : ∀ first ∈ nodes.head?, first.Inner → n ≠ 0 →
    first.nodeSize ≤ k) (h : Fragment.cut nodes 0 k = .ok out) : Opens n out := by
  cases n with
  | zero => trivial
  | succ n =>
    cases nodes with
    | nil => exact hopens.elim
    | cons first rest =>
      have hsize := hopens.1.nodeSize
      obtain ⟨tail, rfl⟩ := cut_first (by omega) (hfirst first rfl hopens.1 (by omega)) h
      exact hopens

/-- What is behind such a place is as open to the right as it all is. -/
theorem cut_closes (hcloses : Closes n nodes)
    (hlast : ∀ before last, nodes = before ++ [last] → last.Inner → n ≠ 0 → k ≤ Fragment.size before)
    (h : Fragment.cutEnd nodes k = .ok out) : Closes n out := by
  cases n with
  | zero => trivial
  | succ n =>
    obtain ⟨before, last, rfl, hinner, hcloses⟩ := closes_succ.mp hcloses
    have hsize := hinner.nodeSize
    obtain ⟨front, rfl⟩ := cut_last (by omega) (hlast before last rfl hinner (by omega)) h
    exact closes_succ.mpr ⟨front, last, rfl, hinner, hcloses⟩

/-! ### Inserting -/

variable {i o : Nat}

/-- A place between two nodes or inside a text, not at the left end, is behind a first inner node. -/
theorem place_first (hfound : Found nodes distance i o)
    (hplace : o = distance ∨ nodes[i]?.any Node.isText = true) (hpos : 0 < distance)
    (hfirst : first ∈ nodes.head?) (hinner : first.Inner) : first.nodeSize ≤ distance := by
  cases hfound with
  | @seam before after hnodes hdistance =>
    cases before with
    | nil =>
      rw [Fragment.size] at hdistance
      omega
    | cons head more =>
      rw [hnodes] at hfirst
      obtain rfl := Option.some.inj hfirst
      rw [hdistance, Fragment.size]
      omega
  | @inside before child after hnodes hlo hhi =>
    have htext : child.isText = true := by
      rcases hplace with h | h
      · omega
      · simpa [hnodes] using h
    cases before with
    | nil =>
      rw [hnodes] at hfirst
      obtain rfl := Option.some.inj hfirst
      rw [hinner.not_isText] at htext
      cases htext
    | cons head more =>
      rw [hnodes] at hfirst
      obtain rfl := Option.some.inj hfirst
      rw [Fragment.size] at hlo
      omega

/-- A place between two nodes or inside a text, not at the right end, is before a last inner node. -/
theorem place_last (hfound : Found nodes distance i o)
    (hplace : o = distance ∨ nodes[i]?.any Node.isText = true) (hlt : distance < Fragment.size nodes)
    (hlast : nodes = before ++ [last]) (hinner : last.Inner) : distance ≤ Fragment.size before := by
  cases hfound with
  | @seam front after hnodes hdistance =>
    rcases List.eq_nil_or_concat after with rfl | ⟨mid, y, rfl⟩
    · rw [hnodes, List.append_nil] at hlt
      omega
    · rw [hlast, List.concat_eq_append, ← List.append_assoc] at hnodes
      rw [(List.append_inj' hnodes rfl).1, Fragment.size_append]
      omega
  | @inside front child after hnodes hlo hhi =>
    have htext : child.isText = true := by
      rcases hplace with h | h
      · omega
      · simpa [hnodes] using h
    rcases split_last (hlast.symm.trans hnodes) with ⟨-, rfl, -⟩ | ⟨mid, rfl⟩
    · rw [hinner.not_isText] at htext
      cases htext
    · have := size_split front mid child
      omega

theorem calm_keptOut (hparent : ∀ node ∈ parent, i ≤ node.childCount) :
    Calm (keptOut S insert openStart openEnd parent i) := by
  cases parent with
  | none => exact calm_ok _
  | some node =>
    have hle := hparent node rfl
    refine calm_ite (fun _ => calm_map ?_) fun _ => calm_ok _
    exact calm_ite (fun h => by omega) fun _ => calm_ok _

theorem calm_insertInto (hparent : ∀ node ∈ parent, node.content = nodes) :
    Calm (insertInto S nodes distance insert openStart openEnd parent) := by
  induction distance using Nat.strong_induction_on generalizing nodes openStart openEnd parent with
  | _ distance ih =>
  unfold insertInto
  refine calm_bind (calm_findIndex _ _) fun found hfind => ?_
  obtain ⟨i, o⟩ := found
  obtain ⟨ho, hi⟩ := found_le (findIndex_found hfind)
  dsimp only
  by_cases hplace : o = distance ∨ nodes[i]?.any Node.isText = true
  · rw [if_pos hplace]
    refine calm_bind (calm_keptOut fun node hnode => ?_) fun kept _ => ?_
    · rw [Node.childCount, hparent node hnode]
      exact hi
    · exact calm_ite (fun _ => calm_pure _) fun _ => calm_bind (calm_cut _ _ _) fun _ _ =>
        calm_bind (calm_cut _ _ _) fun _ _ => calm_pure _
  · rw [if_neg hplace]
    cases hchild : nodes[i]? with
    | none => exact calm_failed _
    | some child =>
      dsimp only
      rw [dif_pos (by omega)]
      refine calm_bind (ih (distance - o - 1) (by omega) ?_) fun inner _ => ?_
      · rintro _ ⟨⟩
        rfl
      · cases inner with
        | none => exact calm_pure _
        | some inner =>
          refine calm_map (calm_ite (fun _ => calm_ok _) fun _ => calm_failed _)

/-- What an insertion gives: the parts around its place with the insertion between them, or the same nodes
    with an insertion into the child that the place is inside. -/
inductive Inserted (insert : Fragment) : Fragment → Nat → Fragment → Prop
  | here {nodes before after : Fragment} {distance i o : Nat} : Found nodes distance i o →
      o = distance ∨ nodes[i]?.any Node.isText = true → Fragment.cut nodes 0 distance = .ok before →
      Fragment.cut nodes distance (Fragment.size nodes) = .ok after →
      Inserted insert nodes distance (Fragment.append (Fragment.append before insert) after)
  | inside {front back inner : Fragment} {child : Node} {place : Nat} : child.Inner → place ≤ Fragment.size child.content →
      Inserted insert child.content place inner →
      Inserted insert (front ++ child :: back) (Fragment.size front + 1 + place) (front ++ child.copy inner :: back)

theorem insertInto_inserted (h : insertInto S nodes distance insert openStart openEnd parent = .ok (some out)) :
    Inserted insert nodes distance out := by
  induction distance using Nat.strong_induction_on generalizing nodes openStart openEnd parent out with
  | _ distance ih =>
  unfold insertInto at h
  obtain ⟨⟨i, o⟩, hfind, h⟩ := bind_ok h
  have hfound := findIndex_found hfind
  dsimp only at h
  by_cases hplace : o = distance ∨ nodes[i]?.any Node.isText = true
  · rw [if_pos hplace] at h
    obtain ⟨kept, -, h⟩ := bind_ok h
    cases kept with
    | true => cases Except.ok.inj h
    | false =>
      obtain ⟨before, hbefore, h⟩ := bind_ok h
      obtain ⟨after, hafter, h⟩ := bind_ok h
      obtain rfl := Option.some.inj (Except.ok.inj h)
      exact .here hfound hplace hbefore hafter
  · rw [if_neg hplace] at h
    cases hfound with
    | @seam front back hsplit hdistance => exact absurd (.inl hdistance.symm) hplace
    | @inside front child back hsplit hlo hhi =>
      have hchild : nodes[front.length]? = some child := by rw [hsplit]; simp
      rw [hchild] at h hplace
      dsimp only at h
      rw [dif_pos hlo] at h
      obtain ⟨inner, hin, h⟩ := bind_ok h
      cases inner with
      | none => cases Except.ok.inj h
      | some inner =>
        have hinner : child.Inner := by
          refine inner_of_inside ?_ (Nat.sub_pos_of_lt hlo) (by omega)
          simpa using fun h => hplace (.inr h)
        obtain rfl : front ++ child.copy inner :: back = out := by
          dsimp only at h
          rw [Fragment.replaceChild, if_pos (by rw [hsplit]; simp), hsplit,
            List.set_append_right _ _ (le_refl _), Nat.sub_self] at h
          exact Option.some.inj (Except.ok.inj h)
        rw [hinner.nodeSize] at hhi
        have hbelow := ih (distance - Fragment.size front - 1) (by omega) hin
        obtain ⟨place, rfl⟩ := Nat.exists_eq_add_of_le hlo
        rw [show Fragment.size front + 1 + place - Fragment.size front - 1 = place by omega] at hbelow
        exact hsplit ▸ .inside hinner (by omega) hbelow

theorem Steady.insertInto {P : Node → Prop} (hP : Steady P) (hnodes : Everywhere P nodes) (hinsert : Everywhere P insert)
    (h : Text.insertInto S nodes distance insert openStart openEnd parent = .ok (some out)) : Everywhere P out := by
  replace h := insertInto_inserted h
  induction h with
  | here _ _ hbefore hafter => exact hP.append (hP.append (hP.cut hnodes hbefore) hinsert) (hP.cut hnodes hafter)
  | inside hinner _ _ ih =>
    obtain ⟨hfront, hchild, hback⟩ := everywhere_append.mp hnodes
    exact everywhere_append.mpr
      ⟨hfront, Node.everywhere_iff.mpr ⟨hP.copy _ hinner.not_isText hchild.here, ih hchild.content⟩, hback⟩

/-- A fragment stays open at its right side when one of its children changes inside, before what is open. -/
theorem inside_closes {front back inner : Fragment} {child : Node} {place : Nat} (hinner : child.Inner)
    (hcloses : Closes m (front ++ child :: back))
    (hm : Fragment.size front + 1 + place + m ≤ Fragment.size (front ++ child :: back))
    (hinside : ∀ {m : Nat}, Closes m child.content → place + m ≤ Fragment.size child.content → Closes m inner) :
    Closes m (front ++ child.copy inner :: back) := by
  cases m with
  | zero => trivial
  | succ m =>
    obtain ⟨init, last, hlast, hlinner, hlcloses⟩ := closes_succ.mp hcloses
    rcases split_last hlast.symm with ⟨rfl, rfl, rfl⟩ | ⟨mid, rfl⟩
    · rw [Fragment.size_append, Fragment.size, Fragment.size, hinner.nodeSize] at hm
      exact closes_succ.mpr ⟨init, last.copy inner, rfl, hinner.copy _, hinside hlcloses (by omega)⟩
    · have hback : back = mid ++ [last] := by
        rw [List.append_assoc, List.cons_append] at hlast
        exact (List.cons.inj (List.append_cancel_left hlast)).2
      refine closes_succ.mpr ⟨front ++ child.copy inner :: mid, last, ?_, hlinner, hlcloses⟩
      rw [hback, List.append_assoc, List.cons_append]

/-- Inserting no less deep than a slice is open leaves its open sides. -/
theorem insertInto_open (hnodes : Built S nodes) (hinsert : Built S insert) (hopens : Opens n nodes)
    (hn : n ≤ distance) (hcloses : Closes m nodes) (hm : distance + m ≤ Fragment.size nodes)
    (h : insertInto S nodes distance insert openStart openEnd parent = .ok (some out)) :
    Opens n out ∧ Closes m out := by
  replace h := insertInto_inserted h
  induction h generalizing n m with
  | here hfound hplace hbefore hafter =>
    refine ⟨append_opens (append_opens (cut_opens hopens ?_ hbefore)),
      append_closes (apart_of_built (shaped_steady.append (shaped_steady.cut hnodes hbefore) hinsert)
        (shaped_steady.cut hnodes hafter))
        (cut_closes hcloses ?_ hafter)⟩
    · exact fun first hfirst hinner hn0 => place_first hfound hplace (by omega) hfirst hinner
    · exact fun before last hlast hinner hm0 => place_last hfound hplace (by omega) hlast hinner
  | @inside front back inner child place hinner hplace _ ih =>
    have hcbuilt := (hnodes.child rfl).content
    constructor
    · cases n with
      | zero => trivial
      | succ n =>
        cases front with
        | nil =>
          rw [Fragment.size] at hn
          exact ⟨hinner.copy _, (ih (m := 0) hcbuilt hopens.2 (by omega) trivial (by omega)).1⟩
        | cons head more => exact hopens
    · exact inside_closes hinner hcloses hm fun hcloses hm =>
        (ih (n := 0) hcbuilt trivial (Nat.zero_le _) hcloses hm).2

end Kodosi.Text
