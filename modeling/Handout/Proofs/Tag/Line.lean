import Handout.Tag.Line

/-!
# Lines make up their text

Cutting a text into lines loses nothing (`flatten_splitLines`).  Each line is a text without line ends and a
terminator, which only the last line may lack (`isLine_of_mem_splitLines`, `pairwise_splitLines`).  When lines are
left out or replaced by other lines, nothing else becomes a line of its own (`exists_of_mem_splitLines`): a carriage
return and a line feed that come together are one terminator, and this is all.
-/

namespace Handout

private theorem flatten_consLine (c : Nat) (lines : List Text) : (consLine c lines).flatten = c :: lines.flatten := by
  unfold consLine
  split
  · subst_vars; rfl
  · split
    · subst_vars
      split <;> rfl
    · cases lines <;> rfl

theorem flatten_splitLines (t : Text) : (splitLines t).flatten = t := by
  induction t with
  | nil => rfl
  | cons c r ih => rw [splitLines, flatten_consLine, ih]

/-! ### Bodies and terminators -/

theorem prefix_lineBody (line : Text) : lineBody line <+: line := by
  obtain ⟨tail, htail⟩ := List.dropWhile_suffix (l := line.reverse) Text.isLineEnd
  refine ⟨tail.reverse, ?_⟩
  rw [lineBody, Text.trimEnd, ← List.reverse_append, htail, List.reverse_reverse]

theorem lineBody_append_lineEnd (line : Text) : lineBody line ++ lineEnd line = line :=
  List.prefix_iff_eq_append.1 (prefix_lineBody line)

private theorem lineBody_cons {c : Nat} (hc : Text.isLineEnd c = false) (line : Text) :
    lineBody (c :: line) = c :: lineBody line := by
  have hdrop : (line.reverse ++ [c]).dropWhile Text.isLineEnd = line.reverse.dropWhile Text.isLineEnd ++ [c] := by
    rw [List.dropWhile_append]
    split
    · rename_i hempty
      rw [List.isEmpty_iff.1 hempty]
      simp [hc]
    · rfl
  rw [lineBody, lineBody, Text.trimEnd, Text.trimEnd, List.reverse_cons, hdrop, List.reverse_append]
  rfl

private theorem lineEnd_cons {c : Nat} (hc : Text.isLineEnd c = false) (line : Text) :
    lineEnd (c :: line) = lineEnd line := by
  rw [lineEnd, lineBody_cons hc]
  rfl

/-- A text without line ends, and then a terminator or nothing. -/
structure IsLine (line : Text) : Prop where
  body : ∀ c ∈ lineBody line, Text.isLineEnd c = false
  terminator : lineEnd line ∈ [[], [10], [13], [13, 10]]

/-- The body of a line ends where its terminator begins. -/
theorem lineBody_append {body : Text} (hbody : ∀ c ∈ body, Text.isLineEnd c = false) {tail : Text}
    (htail : tail ∈ [[], [10], [13], [13, 10]]) : lineBody (body ++ tail) = body ∧ lineEnd (body ++ tail) = tail := by
  induction body with
  | nil =>
    simp only [List.mem_cons, List.not_mem_nil, or_false] at htail
    rcases htail with rfl | rfl | rfl | rfl <;> exact ⟨rfl, rfl⟩
  | cons c body ih =>
    have hc := hbody c List.mem_cons_self
    obtain ⟨ihbody, ihtail⟩ := ih fun d hd => hbody d (List.mem_cons_of_mem _ hd)
    rw [List.cons_append, lineBody_cons hc, lineEnd_cons hc, ihbody, ihtail]
    exact ⟨rfl, rfl⟩

theorem isLine_append {body : Text} (hbody : ∀ c ∈ body, Text.isLineEnd c = false) {tail : Text}
    (htail : tail ∈ [[], [10], [13], [13, 10]]) : IsLine (body ++ tail) := by
  obtain ⟨hb, ht⟩ := lineBody_append hbody htail
  exact ⟨by rwa [hb], by rwa [ht]⟩

theorem isLine_nil : IsLine [] := ⟨nofun, by decide⟩

private theorem isLine_cons {c : Nat} {line : Text} (hc : Text.isLineEnd c = false) (h : IsLine line) :
    IsLine (c :: line) := by
  refine ⟨?_, by rw [lineEnd_cons hc]; exact h.terminator⟩
  rw [lineBody_cons hc]
  exact List.forall_mem_cons.2 ⟨hc, h.body⟩

/-! ### Cutting -/

section

variable {c : Nat} {line : Text} {lines : List Text}

theorem isLineEnd_eq_false (h10 : c ≠ 10) (h13 : c ≠ 13) : Text.isLineEnd c = false := by
  simp [Text.isLineEnd, h10, h13]

theorem consLine_of_not_isLineEnd (hc : Text.isLineEnd c = false) (line : Text) (lines : List Text) :
    consLine c (line :: lines) = (c :: line) :: lines := by
  simp only [Text.isLineEnd, Bool.or_eq_false_iff, beq_eq_false_iff_ne] at hc
  unfold consLine
  rw [if_neg hc.2, if_neg hc.1]

/-- What holds of the lines of a text: they are lines, and only the last one may lack a terminator. -/
private theorem lines_consLine (hlines : ∀ l ∈ lines, IsLine l)
    (hends : lines.Pairwise fun a _ => lineEnd a ≠ []) :
    (∀ l ∈ consLine c lines, IsLine l) ∧ (consLine c lines).Pairwise fun a _ => lineEnd a ≠ [] := by
  unfold consLine
  split
  · exact ⟨List.forall_mem_cons.2 ⟨⟨nofun, by decide⟩, hlines⟩, hends.cons fun _ _ => by decide⟩
  rename_i h10
  split
  · split
    · obtain ⟨-, hlines⟩ := List.forall_mem_cons.1 hlines
      exact ⟨List.forall_mem_cons.2 ⟨⟨nofun, by decide⟩, hlines⟩, hends.tail.cons fun _ _ => by decide⟩
    · exact ⟨List.forall_mem_cons.2 ⟨⟨nofun, by decide⟩, hlines⟩, hends.cons fun _ _ => by decide⟩
  · rename_i h13
    have hc := isLineEnd_eq_false h10 h13
    split
    · exact ⟨by simpa using isLine_cons hc isLine_nil, List.pairwise_singleton _ _⟩
    · rename_i line rest
      obtain ⟨hline, hlines⟩ := List.forall_mem_cons.1 hlines
      obtain ⟨hline', hends⟩ := List.pairwise_cons.1 hends
      refine ⟨List.forall_mem_cons.2 ⟨isLine_cons hc hline, hlines⟩, List.pairwise_cons.2 ⟨fun b hb => ?_, hends⟩⟩
      rw [lineEnd_cons hc]
      exact hline' b hb

private theorem lines_splitLines (t : Text) :
    (∀ l ∈ splitLines t, IsLine l) ∧ (splitLines t).Pairwise fun a _ => lineEnd a ≠ [] := by
  induction t with
  | nil => exact ⟨nofun, List.Pairwise.nil⟩
  | cons c r ih => exact lines_consLine ih.1 ih.2

theorem isLine_of_mem_splitLines {t : Text} (h : line ∈ splitLines t) : IsLine line := (lines_splitLines t).1 line h

/-- Every line before another one has a terminator. -/
theorem pairwise_splitLines (t : Text) : (splitLines t).Pairwise fun a _ => lineEnd a ≠ [] := (lines_splitLines t).2

/-- A line with its terminator, or a last line without one, is cut off from a text; at most the terminator grows. -/
private theorem splitLines_append {body tail r : Text} (hbody : ∀ c ∈ body, Text.isLineEnd c = false)
    (htail : tail ∈ [[10], [13], [13, 10]] ∨ tail = [] ∧ r = []) (hne : body ++ tail ≠ []) :
    ∃ line rest, splitLines (body ++ tail ++ r) = line :: rest ∧ lineBody line = body ∧
      ∀ x ∈ rest, x ∈ splitLines r := by
  induction body with
  | nil =>
    rcases htail with htail | ⟨rfl, -⟩
    · simp only [List.mem_cons, List.not_mem_nil, or_false] at htail
      rcases htail with rfl | rfl | rfl
      · exact ⟨[10], splitLines r, rfl, rfl, fun x hx => hx⟩
      · -- a line feed that follows goes to the terminator
        have hcut : splitLines ([] ++ [13] ++ r) = consLine 13 (splitLines r) := rfl
        rw [hcut]
        unfold consLine
        rw [if_neg (by decide), if_pos rfl]
        split
        · rename_i rest hr
          exact ⟨[13, 10], rest, rfl, rfl, fun x hx => by rw [hr]; exact List.mem_cons_of_mem _ hx⟩
        · exact ⟨[13], splitLines r, rfl, rfl, fun x hx => hx⟩
      · exact ⟨[13, 10], splitLines r, rfl, rfl, fun x hx => hx⟩
    · exact absurd rfl hne
  | cons c body ih =>
    have hc := hbody c List.mem_cons_self
    by_cases hlast : body ++ tail = []
    · obtain ⟨rfl, rfl⟩ := List.append_eq_nil_iff.1 hlast
      obtain rfl : r = [] := by simpa using htail
      simp only [Text.isLineEnd, Bool.or_eq_false_iff, beq_eq_false_iff_ne] at hc
      refine ⟨[c], [], ?_, ?_, nofun⟩
      · show consLine c [] = _
        unfold consLine
        rw [if_neg hc.2, if_neg hc.1]
      · exact lineBody_cons (isLineEnd_eq_false hc.2 hc.1) []
    · obtain ⟨line, rest, hcut, hline, hrest⟩ := ih (fun d hd => hbody d (List.mem_cons_of_mem _ hd)) hlast
      refine ⟨c :: line, rest, ?_, ?_, hrest⟩
      · rw [List.cons_append, List.cons_append, splitLines, hcut, consLine_of_not_isLineEnd hc]
      · rw [lineBody_cons hc, hline]

/-- The lines of a text that is put together from lines have no other bodies than these. -/
theorem exists_of_mem_splitLines (hlines : ∀ l ∈ lines, IsLine l)
    (hends : lines.Pairwise fun a _ => a = [] ∨ lineEnd a ≠ []) {x : Text} (hx : x ∈ splitLines lines.flatten) :
    ∃ l ∈ lines, l ≠ [] ∧ lineBody x = lineBody l := by
  induction lines with
  | nil => cases hx
  | cons line rest ih =>
    obtain ⟨hline, hlines⟩ := List.forall_mem_cons.1 hlines
    obtain ⟨hends', hends⟩ := List.pairwise_cons.1 hends
    have hrest : x ∈ splitLines rest.flatten → ∃ l ∈ line :: rest, l ≠ [] ∧ lineBody x = lineBody l := by
      intro hx
      obtain ⟨l, hl, h⟩ := ih hlines hends hx
      exact ⟨l, List.mem_cons_of_mem _ hl, h⟩
    by_cases hnil : line = []
    · rw [hnil] at hx
      exact hrest hx
    have htail : lineEnd line ∈ [[10], [13], [13, 10]] ∨ lineEnd line = [] ∧ rest.flatten = [] := by
      rcases List.mem_cons.1 hline.terminator with hnone | htail
      · refine .inr ⟨hnone, ?_⟩
        cases rest with
        | nil => rfl
        | cons next rest => exact absurd hnone ((hends' next List.mem_cons_self).resolve_left hnil)
      · exact .inl htail
    obtain ⟨first, others, hcut, hfirst, hothers⟩ :=
      splitLines_append hline.body htail (by rwa [lineBody_append_lineEnd])
    rw [lineBody_append_lineEnd] at hcut
    rw [List.flatten_cons, hcut] at hx
    rcases List.mem_cons.1 hx with rfl | hx
    · exact ⟨line, List.mem_cons_self, hnil, hfirst⟩
    · exact hrest (hothers x hx)

end

end Handout
