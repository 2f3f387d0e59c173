import Handout.Proofs.Tag.Redaction

/-!
# Hidden regions and the stubs in them

A stub for review leaves the hidden regions out, with one exception: a line with a replacement is a stub wherever it
stands, so it is replaced in a hidden region too.  What is shown of a hidden region is thus its replacements and
nothing else: an output that keeps stubs and no hidden lines consists of the lines outside the hidden regions, tagged
as if there were nothing in these (`enclosing_withoutHidden`), and, before each of them, of the replacements that are
hidden there (`keptText_eq_weave`).  Hence two files that are the same outside their hidden regions and have the same
replacements in them have the same stub for review (`render_of_withoutHidden`); without replacements the regions do
not show at all.
-/

namespace Handout

/-! ### The lines of a file, in hidden regions and outside -/

/-- What the lines of a file contribute to a list, each according to the lines before it. -/
def gather {α : Type} (f : List Text → Text → List α) (lines : List Text) : List α :=
  (lines.mapIdx fun i line => f (lines.take i) line).flatten

/-- Whether a line stands in a hidden region when the given tags stand before it.  The line that ends the region does
not. -/
def isHidden (styles : List CommentStyle) (before : List Tag) (line : Text) : Bool :=
  Tag.enclosing before == some .hidden && tagOf? styles line != some (.closing .hidden)

/-- The lines of a file without its hidden regions, of which the first and the last line stay. -/
def withoutHidden (styles : List CommentStyle) : List Text → List Text :=
  gather fun before line => if isHidden styles (tagsOf styles before) line then [] else [line]

/-- The replacements in the hidden regions of a file, each with the number of lines outside hidden regions that stand
before it. -/
def hiddenStubs (styles : List CommentStyle) : List Text → List (Nat × Text) :=
  gather fun before line =>
    if isHidden styles (tagsOf styles before) line && tagOf? styles line == some .stub then
      [((withoutHidden styles before).length, (tagLine styles (tagsOf styles before) line).text)]
    else []

/-- The texts with a place before the `k`-th line. -/
def textsBefore (stubs : List (Nat × Text)) (k : Nat) : Text := ((stubs.filter (·.1 == k)).map Prod.snd).flatten

/-- Some texts, and before each of them the ones that are given that place. -/
def weave (stubs : List (Nat × Text)) (texts : List Text) : Text :=
  ((List.range texts.length).map fun k => textsBefore stubs k ++ texts[k]?.getD []).flatten ++
    textsBefore stubs texts.length

variable {styles : List CommentStyle} {keep : SpanFilter} {before lines : List Text} {line : Text}

@[simp] theorem gather_nil {α : Type} (f : List Text → Text → List α) : gather f [] = [] := rfl

theorem gather_concat {α : Type} (f : List Text → Text → List α) (before : List Text) (line : Text) :
    gather f (before ++ [line]) = gather f before ++ f before line := by
  unfold gather
  rw [List.mapIdx_concat, List.flatten_append]
  congr 1
  · congr 1
    apply List.mapIdx_eq_mapIdx_iff.2
    intro i hi
    rw [List.take_append_of_le_length (Nat.le_of_lt hi)]
  · simp

theorem withoutHidden_concat_of_hidden (h : isHidden styles (tagsOf styles before) line = true) :
    withoutHidden styles (before ++ [line]) = withoutHidden styles before := by
  rw [withoutHidden, gather_concat, if_pos h, List.append_nil]

theorem withoutHidden_concat (h : isHidden styles (tagsOf styles before) line = false) :
    withoutHidden styles (before ++ [line]) = withoutHidden styles before ++ [line] := by
  rw [withoutHidden, gather_concat, h, if_neg Bool.false_ne_true]

theorem hiddenStubs_concat (h : (isHidden styles (tagsOf styles before) line && tagOf? styles line == some .stub) = false) :
    hiddenStubs styles (before ++ [line]) = hiddenStubs styles before := by
  rw [hiddenStubs, gather_concat, h, if_neg Bool.false_ne_true, List.append_nil]

theorem hiddenStubs_concat_of_stub (h : isHidden styles (tagsOf styles before) line = true)
    (ht : tagOf? styles line = some .stub) :
    hiddenStubs styles (before ++ [line]) = hiddenStubs styles before ++
      [((withoutHidden styles before).length, (tagLine styles (tagsOf styles before) line).text)] := by
  rw [hiddenStubs, gather_concat, h, ht]
  rfl

/-- No replacement has a place behind the last line. -/
theorem le_of_mem_hiddenStubs {stub : Nat × Text} (h : stub ∈ hiddenStubs styles lines) :
    stub.1 ≤ (withoutHidden styles lines).length := by
  induction lines using List.reverseRecOn with
  | nil => cases h
  | append_singleton before line ih =>
    cases hhidden : isHidden styles (tagsOf styles before) line with
    | false =>
      rw [hiddenStubs_concat (by rw [hhidden, Bool.false_and])] at h
      rw [withoutHidden_concat hhidden, List.length_append]
      exact Nat.le_succ_of_le (ih h)
    | true =>
      rw [withoutHidden_concat_of_hidden hhidden]
      by_cases ht : tagOf? styles line = some .stub
      · rw [hiddenStubs_concat_of_stub hhidden ht] at h
        rcases List.mem_append.1 h with h | h
        · exact ih h
        · rw [List.mem_singleton.1 h]
      · rw [hiddenStubs_concat (by simp [ht])] at h
        exact ih h

/-! ### Weaving -/

variable {stubs : List (Nat × Text)} {texts : List Text} {text : Text}

private theorem textsBefore_concat (k : Nat) (stub : Nat × Text) :
    textsBefore (stubs ++ [stub]) k = textsBefore stubs k ++ if stub.1 = k then stub.2 else [] := by
  by_cases h : stub.1 = k <;> simp [textsBefore, h]

private theorem textsBefore_of_lt {k : Nat} (h : ∀ stub ∈ stubs, stub.1 < k) : textsBefore stubs k = [] := by
  have hnone : stubs.filter (·.1 == k) = [] :=
    List.filter_eq_nil_iff.2 fun stub hmem => by simpa using Nat.ne_of_lt (h stub hmem)
  rw [textsBefore, hnone]
  rfl

/-- What comes last is put at the end. -/
private theorem weave_concat_stub (stubs : List (Nat × Text)) (texts : List Text) (text : Text) :
    weave (stubs ++ [(texts.length, text)]) texts = weave stubs texts ++ text := by
  unfold weave
  rw [textsBefore_concat, if_pos rfl, ← List.append_assoc]
  congr 3
  apply List.map_congr_left
  intro k hk
  rw [textsBefore_concat, if_neg (Nat.ne_of_gt (List.mem_range.1 hk)), List.append_nil]

private theorem weave_concat (h : ∀ stub ∈ stubs, stub.1 ≤ texts.length) (text : Text) :
    weave stubs (texts ++ [text]) = weave stubs texts ++ text := by
  have hlast : textsBefore stubs (texts.length + 1) = [] :=
    textsBefore_of_lt fun stub hmem => Nat.lt_succ_of_le (h stub hmem)
  have hinit : ((List.range texts.length).map fun k => textsBefore stubs k ++ (texts ++ [text])[k]?.getD []) =
      (List.range texts.length).map fun k => textsBefore stubs k ++ texts[k]?.getD [] := by
    apply List.map_congr_left
    intro k hk
    rw [List.getElem?_append_left (List.mem_range.1 hk)]
  unfold weave
  rw [List.length_append, List.length_singleton, hlast, List.append_nil, List.range_succ, List.map_append,
    List.flatten_append, hinit]
  simp

/-! ### What may stand in a block -/

/-- Tags that can go on to a word of the grammar lead the lexer to a state. -/
private theorem exists_state {ts : List Tag} (h : Tag.Viable ts) :
    ∃ s : LexerState, s.Sound ∧ (∀ w, ts ++ w ∈ Tag.grammar ↔ w ∈ s.rest) ∧
      Tag.enclosing ts = s.block.map OpenBlock.block := by
  induction ts using List.reverseRecOn with
  | nil => exact ⟨{}, nofun, fun _ => Iff.rfl, rfl⟩
  | append_singleton ts t ih =>
    obtain ⟨s, hs, hrest, hblock⟩ := ih h.of_append
    obtain ⟨w, hw⟩ := h
    have hnext : ∀ w, ts ++ [t] ++ w ∈ Tag.grammar ↔ s.accepts t ∧ w ∈ (s.after 0 [] t).rest := by
      intro w
      rw [List.append_assoc, hrest, List.singleton_append, LexerState.cons_mem_rest hs 0 []]
    have hacc : s.accepts t := ((hnext w).1 hw).1
    refine ⟨s.after 0 [] t, s.sound_after 0 [] t, fun w => (hnext w).trans (and_iff_right hacc), ?_⟩
    rw [Tag.enclosing_concat, hblock]
    cases t <;> rfl

/-- The directives in a block are stubs, and the one that ends it. -/
theorem eq_of_enclosing {ts : List Tag} {t : Tag} {b : Block} (h : Tag.Viable (ts ++ [t]))
    (hb : Tag.enclosing ts = some b) : t = .stub ∨ t = .closing b := by
  obtain ⟨s, hs, hrest, hblock⟩ := exists_state h.of_append
  obtain ⟨w, hw⟩ := h
  rw [List.append_assoc, hrest, List.singleton_append, LexerState.cons_mem_rest hs 0 []] at hw
  have hopen : s.block.map OpenBlock.block = some b := hblock.symm.trans hb
  obtain ⟨o, ho, -⟩ := Option.map_eq_some_iff.1 hopen
  cases t with
  | marker =>
    have hseen : s.seenDirective := hs (by rw [ho]; rfl)
    simp [LexerState.accepts, hseen] at hw
  | stub => exact .inl rfl
  | opening b' => simp [LexerState.accepts, ho] at hw
  | closing b' =>
    have hb' : s.block.map OpenBlock.block = some b' := by simpa [LexerState.accepts] using hw.1
    rw [hopen, Option.some.injEq] at hb'
    exact .inr (by rw [hb'])

/-- What is in a hidden region is no directive or a stub. -/
theorem tagOf?_of_hidden (h : Tag.Viable (tagsOf styles (before ++ [line])))
    (hhidden : isHidden styles (tagsOf styles before) line = true) :
    tagOf? styles line = none ∨ tagOf? styles line = some .stub := by
  rw [isHidden, Bool.and_eq_true, beq_iff_eq, bne_iff_ne] at hhidden
  cases ht : tagOf? styles line with
  | none => exact .inl rfl
  | some t =>
    rw [tagsOf_concat_of_some ht] at h
    rcases eq_of_enclosing h hhidden.1 with rfl | rfl
    · exact .inr rfl
    · exact absurd ht hhidden.2

/-! ### What is shown of a file -/

private theorem enclosing_tagsOf_concat (before : List Text) (line : Text) :
    Tag.enclosing (tagsOf styles (before ++ [line])) =
      match tagOf? styles line with
      | some (.opening b) => some b
      | some (.closing _) => none
      | some .marker | some .stub | none => Tag.enclosing (tagsOf styles before) := by
  cases ht : tagOf? styles line with
  | none => rw [tagsOf_concat_of_none ht]
  | some t =>
    rw [tagsOf_concat_of_some ht, Tag.enclosing_concat]
    cases t <;> rfl

/-- The hidden regions taken out, every line stands in the same block as before. -/
theorem enclosing_withoutHidden (h : Tag.Viable (tagsOf styles lines)) :
    Tag.enclosing (tagsOf styles (withoutHidden styles lines)) = Tag.enclosing (tagsOf styles lines) := by
  induction lines using List.reverseRecOn with
  | nil => rfl
  | append_singleton before line ih =>
    have hbefore : Tag.Viable (tagsOf styles before) := by
      rw [tagsOf_append] at h
      exact h.of_append
    cases hhidden : isHidden styles (tagsOf styles before) line with
    | false =>
      rw [withoutHidden_concat hhidden, enclosing_tagsOf_concat, enclosing_tagsOf_concat, ih hbefore]
    | true =>
      rw [withoutHidden_concat_of_hidden hhidden, enclosing_tagsOf_concat, ih hbefore]
      rcases tagOf?_of_hidden h hhidden with ht | ht <;> rw [ht]

/-- How a line is tagged depends on the block in which it stands. -/
private theorem tagLine_congr {ts ts' : List Tag} (h : Tag.enclosing ts = Tag.enclosing ts') (line : Text) :
    tagLine styles ts line = tagLine styles ts' line := by
  rw [tagLine, tagLine, h]

/-- A stub keeps its kind wherever it stands. -/
private theorem kind_of_stub (ht : tagOf? styles line = some .stub) (ts : List Tag) :
    (tagLine styles ts line).kind = .stub := by
  obtain ⟨d, hd, htag⟩ := Option.map_eq_some_iff.1 ht
  rw [tagLine, hd]
  exact congrArg Tag.kind htag

private theorem kind_of_hidden (ht : tagOf? styles line = none) {ts : List Tag}
    (h : isHidden styles ts line = true) : (tagLine styles ts line).kind = .hidden := by
  rw [isHidden, Bool.and_eq_true, beq_iff_eq] at h
  rw [tagLine, Option.map_eq_none_iff.1 ht, h.1]
  rfl

/-- The tags of a file without fault can go on. -/
private theorem viable_of_parseTags {extension : String} {data : Bytes}
    (hext : CommentStyle.forExtension? extension = some styles) (h : (parseTags extension data).fault = none) :
    Tag.Viable (tagsOf styles (splitLines (decode data).text)) := by
  have hfault : (tagLines styles (splitLines (decode data).text)).2 = none := by
    simpa only [parseTags, hext] using h
  exact ⟨[], by simpa using (tagLines_grammar styles _).1.1 hfault⟩

/-- An output with stubs and without hidden lines consists of the lines outside the hidden regions, each as if there
were nothing in these, and of the replacements hidden there. -/
theorem keptText_eq_weave (hstub : keep .stub = true) (hkeep : keep .hidden = false)
    (h : Tag.Viable (tagsOf styles lines)) :
    keptText keep (tagging styles lines) = weave (hiddenStubs styles lines)
      ((tagging styles (withoutHidden styles lines)).map fun l => keptText keep [l]) := by
  induction lines using List.reverseRecOn with
  | nil => rfl
  | append_singleton before line ih =>
    have hbefore : Tag.Viable (tagsOf styles before) := by
      rw [tagsOf_append] at h
      exact h.of_append
    have hlength : ((tagging styles (withoutHidden styles before)).map fun l => keptText keep [l]).length =
        (withoutHidden styles before).length := by
      rw [List.length_map, tagging, List.length_mapIdx]
    rw [tagging_concat, keptText_append, ih hbefore]
    cases hhidden : isHidden styles (tagsOf styles before) line with
    | false =>
      rw [withoutHidden_concat hhidden, hiddenStubs_concat (by rw [hhidden, Bool.false_and]), tagging_concat,
        List.map_append, List.map_singleton, weave_concat fun stub hmem => by
          rw [hlength]
          exact le_of_mem_hiddenStubs hmem,
        tagLine_congr (enclosing_withoutHidden hbefore)]
    | true =>
      rw [withoutHidden_concat_of_hidden hhidden]
      rcases tagOf?_of_hidden h hhidden with ht | ht
      · rw [hiddenStubs_concat (by simp [ht])]
        simp [keptText, kind_of_hidden ht hhidden, hkeep]
      · rw [hiddenStubs_concat_of_stub hhidden ht, ← hlength, weave_concat_stub]
        simp [keptText, kind_of_stub ht, hstub]

/-- Without directives no line is hidden. -/
private theorem withoutHidden_nil (lines : List Text) : withoutHidden [] lines = lines := by
  induction lines using List.reverseRecOn with
  | nil => rfl
  | append_singleton before line ih =>
    rw [withoutHidden_concat (by rw [tagsOf_nil]; rfl), ih]

/-- Two files with the same mark and encoding that are the same outside their hidden regions, and have the same
replacements in these, have the same stub for review. -/
theorem render_of_withoutHidden (extension : String) (data data' : Bytes)
    (hmark : (decode data).mark = (decode data').mark) (hencoding : (decode data).encoding = (decode data').encoding)
    (hdata : (parseTags extension data).fault = none) (hdata' : (parseTags extension data').fault = none) :
    let styles := (CommentStyle.forExtension? extension).getD []
    let lines := splitLines (decode data).text
    let lines' := splitLines (decode data').text
    withoutHidden styles lines = withoutHidden styles lines' → hiddenStubs styles lines = hiddenStubs styles lines' →
      render .review (parseTags extension data).spans = render .review (parseTags extension data').spans := by
  intro styles lines lines' hlines hstubs
  cases hext : CommentStyle.forExtension? extension with
  | none =>
    -- no line is hidden, so both files are the same
    have hnil : styles = [] := by simp only [styles, hext, Option.getD_none]
    rw [hnil, withoutHidden_nil, withoutHidden_nil] at hlines
    rw [eq_of_splitLines hmark hencoding hlines]
  | some known =>
    have hstyles : styles = known := by simp only [styles, hext, Option.getD_some]
    rw [hstyles] at hlines hstubs
    have hviable : Tag.Viable (tagsOf known lines) := viable_of_parseTags hext hdata
    have hviable' : Tag.Viable (tagsOf known lines') := viable_of_parseTags hext hdata'
    rw [render_parseTags hext hdata, render_parseTags hext hdata', keptText_eq_weave rfl rfl hviable,
      keptText_eq_weave rfl rfl hviable', hlines, hstubs, hmark, hencoding]

/-- A file whose hidden region has some lines. -/
def sampleHidden (hidden : String) : Bytes :=
  Bytes.ofString ("a\n// BEGIN HIDDEN\n" ++ hidden ++ "// END HIDDEN\nb\n")

/-- However the replacement is written and whatever else is hidden, the stub for review is the same. -/
theorem render_sampleHidden :
    render .review (parseTags "java" (sampleHidden "t\n// STUB: u\n")).spans =
      render .review (parseTags "java" (sampleHidden "/* STUB: u */\nv\nw\n")).spans := by
  refine render_of_withoutHidden "java" _ _ ?_ ?_ ?_ ?_ ?_ ?_
  all_goals decide +kernel

/-- A replacement in a hidden region shows in the stub for review. -/
theorem render_sampleHidden_stub :
    (parseTags "java" (sampleHidden "// STUB: t\n")).fault = none ∧
    withoutHidden ((CommentStyle.forExtension? "java").getD [])
        (splitLines (decode (sampleHidden "// STUB: t\n")).text) =
      withoutHidden ((CommentStyle.forExtension? "java").getD []) (splitLines (decode (sampleHidden "")).text) ∧
    render .review (parseTags "java" (sampleHidden "// STUB: t\n")).spans = Bytes.ofString "a\nt\nb\n" ∧
    render .review (parseTags "java" (sampleHidden "")).spans = Bytes.ofString "a\nb\n" := by
  refine ⟨?_, ?_, ?_, ?_⟩
  all_goals decide +kernel

end Handout
