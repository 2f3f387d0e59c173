import Handout.Proofs.Files.Basic
import Handout.Proofs.Sorting

/-!
# Reading paths

The components of a path that is read are names, apart from `..` (`Path.isName_of_mem_ofString`), and names that are
joined by slashes are read as these names (`Path.ofString_intercalate`).  Paths are in a total order, in which paths
with the same anchor that differ have different places (`Path.le_antisymm`).
-/

namespace Handout.Path

variable {c : String} {parts : List String}

/-! ### Pieces -/

private theorem not_mem_of_mem_splitAt {sep : Char} {cs piece : List Char} (h : piece ∈ splitAt sep cs) :
    sep ∉ piece := by
  induction cs generalizing piece with
  | nil =>
    rw [List.mem_singleton.1 h]
    exact List.not_mem_nil
  | cons c cs ih =>
    unfold splitAt at h
    split at h
    · rcases List.mem_cons.1 h with rfl | h
      · exact List.not_mem_nil
      · exact ih h
    · rename_i hc
      split at h
      · rw [List.mem_singleton.1 h]
        simpa using fun h => hc h.symm
      · rename_i p ps hsplit
        rw [hsplit] at ih
        rcases List.mem_cons.1 h with rfl | h
        · have := ih (List.mem_cons_self ..)
          simpa [this] using fun h => hc h.symm
        · exact ih (List.mem_cons_of_mem _ h)

theorem splitAt_of_not_mem {sep : Char} {cs : List Char} (h : sep ∉ cs) : splitAt sep cs = [cs] := by
  induction cs with
  | nil => rfl
  | cons c cs ih =>
    rw [List.mem_cons, not_or] at h
    rw [splitAt, if_neg fun he => h.1 he.symm, ih h.2]

theorem splitAt_append {sep : Char} {cs : List Char} (h : sep ∉ cs) (rest : List Char) :
    splitAt sep (cs ++ sep :: rest) = cs :: splitAt sep rest := by
  induction cs with
  | nil => rw [List.nil_append, splitAt, if_pos rfl]
  | cons c cs ih =>
    rw [List.mem_cons, not_or] at h
    rw [List.cons_append, splitAt, if_neg fun he => h.1 he.symm, ih h.2]

/-- Pieces without the separator are read back when they have been joined by it. -/
theorem splitAt_intercalate {sep : Char} {ps : List (List Char)} (hne : ps ≠ []) (h : ∀ p ∈ ps, sep ∉ p) :
    splitAt sep ([sep].intercalate ps) = ps := by
  induction ps with
  | nil => exact absurd rfl hne
  | cons p ps ih =>
    have hp : sep ∉ p := h p (List.mem_cons_self ..)
    cases ps with
    | nil => rw [List.intercalate_singleton, splitAt_of_not_mem hp]
    | cons q ps =>
      rw [List.intercalate_cons_cons, List.append_assoc, List.singleton_append, splitAt_append hp,
        ih (List.cons_ne_nil _ _) fun x hx => h x (List.mem_cons_of_mem _ hx)]

/-- The pieces of a joined path are the ones that were joined. -/
theorem pieces_intercalate (hne : parts ≠ []) (h : ∀ c ∈ parts, '/' ∉ c.toList) :
    pieces ("/".intercalate parts) = parts := by
  have hpieces : ∀ p ∈ parts.map String.toList, '/' ∉ p := by
    intro p hp
    obtain ⟨c, hc, rfl⟩ := List.mem_map.1 hp
    exact h c hc
  unfold pieces
  rw [String.toList_intercalate, show "/".toList = ['/'] from rfl,
    splitAt_intercalate (fun hnil => hne (List.map_eq_nil_iff.1 hnil)) hpieces, List.map_map]
  exact List.map_id'' (fun _ => String.ofList_toList) parts

private theorem mem_intercalate {x : Char} (h : x ∈ ("/".intercalate parts).toList) :
    x = '/' ∨ ∃ c ∈ parts, x ∈ c.toList := by
  induction parts with
  | nil => cases h
  | cons c parts ih =>
    by_cases hparts : parts = []
    · rw [hparts, String.intercalate_singleton] at h
      exact .inr ⟨c, List.mem_cons_self .., h⟩
    · rw [String.intercalate_cons_of_ne_nil hparts, String.toList_append, String.toList_append, List.mem_append,
        List.mem_append] at h
      rcases h with (h | h) | h
      · exact .inr ⟨c, List.mem_cons_self .., h⟩
      · exact .inl (List.mem_singleton.1 h)
      · exact (ih h).imp_right fun ⟨y, hy, hx⟩ => ⟨y, List.mem_cons_of_mem _ hy, hx⟩

private theorem anchorOf_intercalate (hne : c ≠ "") (hc : '/' ∉ c.toList) :
    anchorOf ("/".intercalate (c :: parts)) = .relative := by
  obtain ⟨x, xs, hx⟩ : ∃ x xs, c.toList = x :: xs :=
    List.exists_cons_of_ne_nil fun h => hne (String.toList_eq_nil_iff.1 h)
  have hfirst : x ≠ '/' := by
    rintro rfl
    rw [hx] at hc
    exact hc (List.mem_cons_self ..)
  have hstart : ∃ rest, ("/".intercalate (c :: parts)).toList = x :: rest := by
    by_cases hparts : parts = []
    · exact ⟨xs, by rw [hparts, String.intercalate_singleton, hx]⟩
    · exact ⟨_, by rw [String.intercalate_cons_of_ne_nil hparts, String.toList_append, String.toList_append, hx,
        List.cons_append, List.cons_append]⟩
  obtain ⟨rest, hrest⟩ := hstart
  unfold anchorOf
  rw [hrest, List.takeWhile_cons_of_neg (by simpa using hfirst)]
  rfl

/-- A joined path is read as the components among its parts. -/
theorem ofString_intercalate (hne : c ≠ "") (h : ∀ x ∈ c :: parts, '/' ∉ x.toList) :
    ofString ("/".intercalate (c :: parts)) = ⟨.relative, (c :: parts).filter isComponent⟩ := by
  unfold ofString
  rw [anchorOf_intercalate hne (h c (List.mem_cons_self ..)), pieces_intercalate (List.cons_ne_nil _ _) h]

/-- A path is relative if its text does not begin with a slash. -/
theorem anchorOf_eq_relative {text : String} : anchorOf text = .relative ↔ text.toList.head? ≠ some '/' := by
  unfold anchorOf
  cases text.toList with
  | nil => simp
  | cons c rest =>
    by_cases hc : c = '/'
    · rw [List.takeWhile_cons_of_pos (by simp [hc])]
      simp only [List.length_cons, List.head?_cons, hc, ne_eq, not_true_eq_false, iff_false]
      split
      · rename_i hlength
        cases hlength
      · exact nofun
      · exact nofun
    · rw [List.takeWhile_cons_of_neg (by simp [hc])]
      simp [hc]

/-! ### Components -/

private theorem isComponent_iff : isComponent c = true ↔ Files.isStay c = false := by
  unfold isComponent Files.isStay
  cases hempty : c == "" <;> simp [bne, hempty]

/-- The components of a path that is read are made of the characters that are read. -/
theorem mem_ofString {text c : String} (h : c ∈ (ofString text).parts) {x : Char} (hx : x ∈ c.toList) :
    x ∈ text.toList := by
  have hsplit : ∀ {cs piece : List Char}, piece ∈ splitAt '/' cs → x ∈ piece → x ∈ cs := by
    intro cs
    induction cs with
    | nil =>
      intro piece hpiece hx
      rw [List.mem_singleton.1 hpiece] at hx
      exact hx
    | cons c cs ih =>
      intro piece hpiece hx
      unfold splitAt at hpiece
      split at hpiece
      · rcases List.mem_cons.1 hpiece with rfl | hpiece
        · cases hx
        · exact List.mem_cons_of_mem _ (ih hpiece hx)
      · split at hpiece
        · rw [List.mem_singleton.1 hpiece, List.mem_singleton] at hx
          rw [hx]
          exact List.mem_cons_self ..
        · rename_i p ps hcs
          rw [hcs] at ih
          rcases List.mem_cons.1 hpiece with rfl | hpiece
          · rcases List.mem_cons.1 hx with rfl | hx
            · exact List.mem_cons_self ..
            · exact List.mem_cons_of_mem _ (ih (List.mem_cons_self ..) hx)
          · exact List.mem_cons_of_mem _ (ih (List.mem_cons_of_mem _ hpiece) hx)
  unfold ofString pieces at h
  obtain ⟨piece, hpiece, rfl⟩ := List.mem_map.1 (List.mem_filter.1 h).1
  exact hsplit hpiece (by simpa using hx)

/-- The components of a path that is read are names, apart from `..`. -/
theorem isName_of_mem_ofString {text : String} (h : c ∈ (ofString text).parts) (hc : c ≠ "..") : IsName c := by
  obtain ⟨hpiece, hcomponent⟩ := List.mem_filter.1 (h : c ∈ (pieces text).filter isComponent)
  refine ⟨⟨isComponent_iff.1 hcomponent, hc⟩, ?_⟩
  obtain ⟨piece, hmem, rfl⟩ := List.mem_map.1 hpiece
  rw [String.toList_ofList]
  exact not_mem_of_mem_splitAt hmem

private theorem filter_isComponent (h : ∀ x ∈ parts, IsName x) : parts.filter isComponent = parts :=
  List.filter_eq_self.2 fun x hx => isComponent_iff.2 (h x hx).plain.1

/-- A name is read as the path of this name. -/
theorem ofString_of_isName (h : IsName c) : ofString c = ⟨.relative, [c]⟩ := by
  have hne : c ≠ "" := by
    rintro rfl
    cases h.plain.1
  have hparts : ∀ x ∈ [c], IsName x := fun x hx => List.mem_singleton.1 hx ▸ h
  have hread := ofString_intercalate hne fun x hx => (hparts x hx).noSlash
  rwa [String.intercalate_singleton, filter_isComponent hparts] at hread

/-- A relative path made of names is read as it is written, also with a slash at the end. -/
theorem ofString_toString {p : Path} (hrelative : p.anchor = .relative) (h : ∀ x ∈ p.parts, IsName x) :
    ofString p.toString = p ∧ ofString (p.toString ++ "/") = p := by
  obtain ⟨anchor, parts⟩ := p
  obtain rfl : anchor = .relative := hrelative
  cases parts with
  | nil => decide +kernel
  | cons c parts =>
    have hne : c ≠ "" := by
      rintro rfl
      cases (h "" (List.mem_cons_self ..)).plain.1
    have hslash : ∀ x ∈ c :: (parts ++ [""]), '/' ∉ x.toList := by
      intro x hx
      rcases List.mem_append.1 (List.cons_append ▸ hx : x ∈ c :: parts ++ [""]) with hx | hx
      · exact (h x hx).noSlash
      · rw [List.mem_singleton.1 hx]
        exact List.not_mem_nil
    have htext : toString ⟨.relative, c :: parts⟩ = "/".intercalate (c :: parts) := by
      unfold toString
      rw [if_neg (by simp [here])]
      exact String.empty_append
    have hlong : "/".intercalate (c :: parts) ++ "/" = "/".intercalate (c :: (parts ++ [""])) := by
      rw [← List.cons_append, String.intercalate_append_of_ne_nil (List.cons_ne_nil _ _) (List.cons_ne_nil _ _),
        String.intercalate_singleton, String.append_empty]
    rw [htext, hlong]
    refine ⟨?_, ?_⟩
    · rw [ofString_intercalate hne fun x hx => (h x hx).noSlash, filter_isComponent h]
    · rw [ofString_intercalate hne hslash, ← List.cons_append, List.filter_append, filter_isComponent h,
        show [""].filter isComponent = [] by decide, List.append_nil]

/-- A written relative path has the characters of its components, slashes and dots. -/
theorem mem_toString {p : Path} (hrelative : p.anchor = .relative) {x : Char} (h : x ∈ p.toString.toList) :
    x = '/' ∨ x = '.' ∨ ∃ c ∈ p.parts, x ∈ c.toList := by
  unfold toString at h
  split at h
  · exact .inr (.inl (List.mem_singleton.1 h))
  · rw [hrelative] at h
    exact (mem_intercalate (by simpa [Anchor.text] using h)).imp_right .inr

/-! ### Paths under paths -/

/-- The parents of a path are what its first components lead to. -/
theorem mem_parents {p q : Path} : q ∈ p.parents ↔ q.anchor = p.anchor ∧ q.parts <+: p.parts ∧ q.parts ≠ p.parts := by
  obtain ⟨anchor, parts⟩ := p
  obtain ⟨anchor', parts'⟩ := q
  unfold parents
  simp only [List.mem_map, List.mem_reverse, List.mem_range, Path.mk.injEq]
  constructor
  · rintro ⟨n, hn, rfl, rfl⟩
    exact ⟨rfl, List.take_prefix _ _, fun he => absurd (congrArg List.length he) (by rw [List.length_take]; omega)⟩
  · rintro ⟨rfl, hbegin, hne⟩
    have hlt := Nat.lt_of_le_of_ne hbegin.length_le fun he => hne (hbegin.eq_of_length he)
    exact ⟨_, hlt, rfl, (List.prefix_iff_eq_take.1 hbegin).symm⟩

/-- A path is under another one if its components begin with those of the other one. -/
theorem isUnder_iff {p ancestor : Path} : p.isUnder ancestor = true ↔ p.anchor = ancestor.anchor ∧ ancestor.parts <+: p.parts := by
  unfold isUnder
  rw [Bool.or_eq_true, beq_iff_eq, List.contains_iff_mem, mem_parents]
  constructor
  · rintro (rfl | ⟨hanchor, hbegin, -⟩)
    · exact ⟨rfl, List.prefix_refl _⟩
    · exact ⟨hanchor.symm, hbegin⟩
  · rintro ⟨hanchor, hbegin⟩
    by_cases he : ancestor.parts = p.parts
    · left
      obtain ⟨anchor, parts⟩ := p
      obtain ⟨anchor', parts'⟩ := ancestor
      obtain rfl : anchor = anchor' := hanchor
      obtain rfl : parts' = parts := he
      rfl
    · exact .inr ⟨hanchor.symm, hbegin, he⟩

theorem startsWith_iff {p q : Path} : p.startsWith q = true ↔ q.components <+: p.components := by
  unfold startsWith
  rw [beq_iff_eq, List.prefix_iff_eq_take, eq_comm]

/-! ### The order of paths -/

/-- Paths are in the order of their components. -/
theorem le_iff {p q : Path} : p.le q = true ↔ ¬ q.components < p.components := by
  unfold le
  rw [Bool.not_eq_true', List.lex_eq_false_iff_ge]
  exact List.not_lt.symm

protected theorem le_trans (p q r : Path) (hpq : p.le q = true) (hqr : q.le r = true) : p.le r = true := by
  have hpq' := List.not_lt.1 (le_iff.1 hpq)
  have hqr' := List.not_lt.1 (le_iff.1 hqr)
  exact le_iff.2 (List.not_lt.2 (List.le_trans hpq' hqr'))

protected theorem le_total (p q : Path) : p.le q = true ∨ q.le p = true :=
  (List.le_total p.components q.components).imp (fun hpq => le_iff.2 (List.not_lt.2 hpq)) fun hqp =>
    le_iff.2 (List.not_lt.2 hqp)

protected theorem le_antisymm {p q : Path} (hanchor : p.anchor = q.anchor) (hpq : p.le q = true) (hqp : q.le p = true) :
    p = q := by
  have hcomponents := List.le_antisymm (List.not_lt.1 (le_iff.1 hpq)) (List.not_lt.1 (le_iff.1 hqp))
  obtain ⟨anchor, parts⟩ := p
  obtain ⟨anchor', parts'⟩ := q
  obtain rfl : anchor = anchor' := hanchor
  have hparts : parts = parts' := by
    unfold components at hcomponents
    cases anchor with
    | relative => exact hcomponents
    | root | doubleRoot => exact (List.cons.inj hcomponents).2
  rw [hparts]

/-- Paths in order, each once. -/
def IsIncreasing (ps : List Path) : Prop := ps.Pairwise fun p q => p.le q = true ∧ p ≠ q

theorem isIncreasing_sort {ps : List Path} (h : ps.Nodup) : IsIncreasing (sort ps) := by
  have hsorted : (sort ps).Pairwise fun p q => p.le q = true := sortBy_pairwise Path.le_trans Path.le_total ps
  exact hsorted.and ((sortBy_perm _ ps).nodup_iff.2 h)

/-- Paths in order are known by their members. -/
theorem IsIncreasing.eq_of_mem_iff {ps qs : List Path} (hps : IsIncreasing ps) (hqs : IsIncreasing qs)
    (hanchor : ∀ p ∈ ps, ∀ q ∈ ps, p.anchor = q.anchor) (hmem : ∀ p, p ∈ ps ↔ p ∈ qs) : ps = qs := by
  have hperm : ps.Perm qs :=
    (List.perm_ext_iff_of_nodup (hps.imp fun hpq => hpq.2) (hqs.imp fun hpq => hpq.2)).2 hmem
  refine hperm.eq_of_pairwise (fun p q hp hq hpq hqp => ?_) hps hqs
  exact Path.le_antisymm (hanchor p hp q ((hmem q).2 hq)) hpq.1 hqp.1

/-- Paths in order that are among other paths in order come in the order of these. -/
theorem IsIncreasing.sublist_of_subset {ps qs : List Path} (hps : IsIncreasing ps) (hqs : IsIncreasing qs)
    (hanchor : ∀ p ∈ ps, ∀ q ∈ ps, p.anchor = q.anchor) (hsub : ps ⊆ qs) : ps.Sublist qs := by
  have hkept : ps = qs.filter fun q => q ∈ ps := by
    refine hps.eq_of_mem_iff (List.Pairwise.sublist List.filter_sublist hqs) hanchor fun p => ?_
    rw [List.mem_filter, decide_eq_true_eq]
    exact ⟨fun hp => ⟨hsub hp, hp⟩, fun hp => hp.2⟩
  rw [hkept]
  exact List.filter_sublist

end Handout.Path
