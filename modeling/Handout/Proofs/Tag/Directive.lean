import Handout.Proofs.Tag.Lexer
import Handout.Proofs.Tag.Line

/-!
# What a directive takes from its line

Reading cuts a line into parts and never makes anything up: a token is cut off the front (`dropToken?_eq_some`), an
indentation consists of blanks at the front (`mem_blankCuts`), and a replacement is what stands before a proper end
(`prefix_of_beforeClose?`).  So the indentation and the replacement of a stub are pieces of the line
(`parts_of_readAny?`), and whatever takes the place of a line has its characters from there (`mem_of_mem_replace`).
-/

namespace Handout

variable {styles : List CommentStyle} {line t r : Text}

namespace Directive

theorem dropToken?_eq_some {token : Text} : dropToken? token t = some r ↔ t = token ++ r := by
  induction token generalizing t with
  | nil => simp [dropToken?]
  | cons k ks ih =>
    cases t with
    | nil => simp [dropToken?]
    | cons c t =>
      unfold dropToken?
      split
      · rename_i hkc
        rw [ih, hkc]
        simp
      · rename_i hkc
        simp [Ne.symm hkc]

theorem mem_blankCuts {cut : Text × Text} (h : cut ∈ blankCuts t) :
    t = cut.1 ++ cut.2 ∧ ∀ c ∈ cut.1, Text.isBlank c := by
  induction t generalizing cut with
  | nil =>
    cases List.mem_singleton.1 h
    simp
  | cons c t ih =>
    unfold blankCuts at h
    split at h
    · rename_i hblank
      rcases List.mem_append.1 h with h | h
      · obtain ⟨shorter, hmem, rfl⟩ := List.mem_map.1 h
        obtain ⟨ht, hall⟩ := ih hmem
        refine ⟨by rw [ht]; rfl, ?_⟩
        intro d hd
        rcases List.mem_cons.1 hd with rfl | hd
        · exact hblank
        · exact hall d hd
      · cases List.mem_singleton.1 h
        simp
    · cases List.mem_singleton.1 h
      simp

theorem prefix_of_beforeClose? {closing : Option Text} (h : beforeClose? closing t = some r) : r <+: t := by
  induction t generalizing r with
  | nil =>
    unfold beforeClose? at h
    split at h
    · cases h
      exact List.prefix_rfl
    · cases h
  | cons c t ih =>
    unfold beforeClose? at h
    split at h
    · cases h
      exact List.nil_prefix
    · obtain ⟨shorter, hshorter, rfl⟩ := Option.map_eq_some_iff.1 h
      rw [List.cons_prefix_cons]
      exact ⟨rfl, ih hshorter⟩

/-- What is read behind the opening of a comment as a stub has the indentation that was read before it, and a
replacement that is part of what follows `STUB:`. -/
private theorem parts_of_readContent? {closing : Option Text} {before indent replacement : Text}
    (h : readContent? closing before t = some (.stub indent replacement)) :
    indent = before ∧ ∃ rest, t = Text.ofString "STUB:" ++ rest ∧ replacement <:+: rest := by
  unfold readContent? at h
  simp only [Option.orElse_eq_or, Option.or_eq_some_iff] at h
  rcases h with h | ⟨-, h⟩
  · -- a keyword is no stub
    obtain ⟨k, -, hk⟩ := List.exists_of_findSome?_eq_some h
    obtain ⟨⟨written, rest⟩, -, hk⟩ := Option.bind_eq_some_iff.1 hk
    simp only at hk
    split at hk
    · cases hk
    · cases hk
  · obtain ⟨rest, hrest, h⟩ := Option.bind_eq_some_iff.1 h
    obtain ⟨found, hfound, h⟩ := Option.bind_eq_some_iff.1 h
    cases h
    refine ⟨rfl, rest, dropToken?_eq_some.1 hrest, ?_⟩
    obtain ⟨cut, hcut, hbefore⟩ := List.exists_of_findSome?_eq_some hfound
    rw [(mem_blankCuts hcut).1]
    have hpart : replacement <:+: cut.2 := (prefix_of_beforeClose? hbefore).isInfix
    exact hpart.trans (List.suffix_append _ _).isInfix

/-- The indentation of a stub stands at the start of its line and consists of blanks; then comes what makes the line
a comment and a stub, and behind it somewhere the replacement. -/
theorem comment_of_readAny? {indent replacement : Text} (h : readAny? styles t = some (.stub indent replacement)) :
    ∃ comment rest, t = indent ++ (comment ++ rest) ∧ comment ≠ [] ∧ (∀ c ∈ indent, Text.isBlank c) ∧
      replacement <:+: rest := by
  obtain ⟨style, -, h⟩ := List.exists_of_findSome?_eq_some h
  obtain ⟨cut, hcut, h⟩ := List.exists_of_findSome?_eq_some h
  obtain ⟨r, hr, h⟩ := Option.bind_eq_some_iff.1 h
  obtain ⟨rfl, rest, hrest, hpart⟩ := parts_of_readContent? h
  obtain ⟨ht, hblank⟩ := mem_blankCuts hcut
  refine ⟨style.opening ++ r.takeWhile Text.isBlank ++ Text.ofString "STUB:", rest, ?_, ?_, hblank, hpart⟩
  · rw [ht, dropToken?_eq_some.1 hr, List.append_assoc, ← hrest, List.append_assoc, List.takeWhile_append_dropWhile]
  · exact List.append_ne_nil_of_right_ne_nil _ (by decide)

/-- The indentation of a stub stands at the start of its line and consists of blanks, and the replacement follows it
somewhere. -/
theorem parts_of_readAny? {indent replacement : Text} (h : readAny? styles t = some (.stub indent replacement)) :
    ∃ rest, t = indent ++ rest ∧ (∀ c ∈ indent, Text.isBlank c) ∧ replacement <:+: rest := by
  obtain ⟨comment, rest, ht, -, hblank, hpart⟩ := comment_of_readAny? h
  exact ⟨comment ++ rest, ht, hblank, hpart.trans (List.suffix_append _ _).isInfix⟩

/-- What takes the place of a line has its characters from there. -/
theorem mem_of_mem_replace {d : Directive} (h : readAny? styles (lineBody line) = some d) {c : Nat}
    (hc : c ∈ d.replace line) : c ∈ line := by
  cases d with
  | keyword indent k written => cases hc
  | stub indent replacement =>
    obtain ⟨rest, hbody, -, hpart⟩ := parts_of_readAny? h
    rw [← lineBody_append_lineEnd line, hbody]
    simp only [replace, List.append_assoc, List.mem_append] at hc ⊢
    rcases hc with hc | hc | hc
    · exact .inl hc
    · exact .inr (.inl (hpart.subset hc))
    · exact .inr (.inr hc)

end Directive

namespace Lexer

variable {s s' : LexerState} {n : Nat} {lines : List Text} {tagged : TaggedLine}

private theorem mem_of_step (h : step styles s n line = .ok (tagged, s')) : ∀ c ∈ tagged.text, c ∈ line := by
  rw [step_eq] at h
  split at h
  · cases h
    exact fun c hc => hc
  · rename_i d hd
    split at h
    · cases h
      exact fun c hc => Directive.mem_of_mem_replace hd hc
    · cases h

/-- The characters of a tagged line, and of what takes its place, are those of a line of the file. -/
theorem mem_of_mem_run (h : tagged ∈ (run styles s n lines).1) :
    tagged.raw ∈ lines ∧ ∀ c ∈ tagged.text, c ∈ tagged.raw := by
  induction lines generalizing s n with
  | nil => cases h
  | cons line rest ih =>
    cases hstep : step styles s n line with
    | error fault =>
      rw [run_cons_of_error hstep] at h
      cases h
    | ok next =>
      rw [run_cons_of_ok hstep] at h
      rcases List.mem_cons.1 h with rfl | h
      · rw [raw_of_step hstep]
        exact ⟨List.mem_cons_self, mem_of_step hstep⟩
      · obtain ⟨hraw, htext⟩ := ih h
        exact ⟨List.mem_cons_of_mem _ hraw, htext⟩

end Lexer

end Handout
