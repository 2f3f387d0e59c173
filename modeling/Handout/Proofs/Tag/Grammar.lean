import Handout.Proofs.Tag.Lexer
import Mathlib.Computability.Language

/-!
# The grammar of tags

The tags of a well-formed file are a word of `F? (S | BS S* ES | BH S* EH)*`, where `F` is the marker of a solution
file, `S` a stub, and `BS`, `ES`, `BH`, `EH` open and close a solution or a hidden block (`Tag.grammar`).

What a state of the lexer may still be followed by is a language of its own, `LexerState.rest`, and a tag is allowed
in a state exactly if some word of that language starts with it (`cons_mem_rest`).  So the lexer follows the grammar:
it goes through to the end exactly on words of the grammar, and otherwise it stops at the first tag that no word of
the grammar has at this place, or else at the end, on account of the block that is open there (`tagLines_grammar`).
-/

namespace Handout

open scoped Computability

/-! ### The language -/

namespace Tag

/-- One region: a stub, or a block that holds any number of stubs. -/
def region : Language Tag :=
  {[stub]} + {[opening .solution]} * {[stub]}∗ * {[closing .solution]}
    + {[opening .hidden]} * {[stub]}∗ * {[closing .hidden]}

/-- The tags of a well-formed file. -/
def grammar : Language Tag := (1 + {[marker]}) * region∗

/-- Whether tags can go on to a word of the grammar. -/
def Viable (ts : List Tag) : Prop := ∃ rest, ts ++ rest ∈ grammar

/-- What may follow the opening of a block. -/
private def inside (b : Block) : Language Tag := {[stub]}∗ * ({[closing b]} * region∗)

private theorem cons_mem_singleton_mul {a t : Tag} {w : List Tag} {l : Language Tag} :
    t :: w ∈ ({[a]} : Language Tag) * l ↔ t = a ∧ w ∈ l := by
  rw [Language.mem_mul]
  constructor
  · rintro ⟨u, hu, v, hv, h⟩
    cases Set.mem_singleton_iff.1 hu
    cases h
    exact ⟨rfl, hv⟩
  · rintro ⟨rfl, hw⟩
    exact ⟨[t], rfl, w, hw, rfl⟩

private theorem cons_mem_regions {t : Tag} {w : List Tag} :
    t :: w ∈ region∗ ↔ (t = stub ∧ w ∈ region∗) ∨ ∃ b, t = opening b ∧ w ∈ inside b := by
  have h : region∗ = 1 + ({[stub]} * region∗ + {[opening .solution]} * inside .solution
      + {[opening .hidden]} * inside .hidden) := by
    conv => lhs; rw [← Language.one_add_self_mul_kstar_eq_kstar]
    simp only [inside, ← mul_assoc, ← add_mul]
    rfl
  conv => lhs; rw [h]
  simp only [Language.mem_add, Language.mem_one, cons_mem_singleton_mul, List.cons_ne_nil, false_or, or_assoc]
  refine or_congr Iff.rfl ⟨?_, ?_⟩
  · rintro (h | h)
    · exact ⟨.solution, h⟩
    · exact ⟨.hidden, h⟩
  · rintro ⟨⟨⟩ | ⟨⟩, h⟩
    · exact .inl h
    · exact .inr h

private theorem cons_mem_inside {b : Block} {t : Tag} {w : List Tag} :
    t :: w ∈ inside b ↔ (t = stub ∧ w ∈ inside b) ∨ (t = closing b ∧ w ∈ region∗) := by
  have h : inside b = {[stub]} * inside b + {[closing b]} * region∗ := by
    conv => lhs; rw [inside, ← Language.one_add_self_mul_kstar_eq_kstar]
    rw [add_mul, one_mul, mul_assoc, add_comm]
    rfl
  conv => lhs; rw [h]
  simp only [Language.mem_add, cons_mem_singleton_mul]

private theorem grammar_eq : grammar = region∗ + {[marker]} * region∗ := by
  rw [grammar, add_mul, one_mul]

private theorem nil_mem_singleton_mul {a : Tag} {l : Language Tag} : [] ∉ ({[a]} : Language Tag) * l := by
  rw [Language.mem_mul]
  rintro ⟨u, hu, v, _, h⟩
  cases Set.mem_singleton_iff.1 hu
  cases h

private theorem nil_mem_inside {b : Block} : [] ∉ inside b := by
  rw [inside, Language.mem_mul]
  rintro ⟨u, _, v, hv, h⟩
  obtain ⟨rfl, rfl⟩ := List.append_eq_nil_iff.1 h
  exact nil_mem_singleton_mul hv

theorem Viable.of_append {ts us : List Tag} (h : Viable (ts ++ us)) : Viable ts := by
  obtain ⟨rest, hr⟩ := h
  exact ⟨us ++ rest, by rwa [← List.append_assoc]⟩

end Tag

/-! ### What may follow a state -/

namespace LexerState

/-- The words that may follow a state. -/
def rest (s : LexerState) : Language Tag :=
  match s.block with
  | some b => Tag.inside b.block
  | none => if s.seenDirective then Tag.region∗ else Tag.grammar

/-- A block is opened by a directive. -/
def Sound (s : LexerState) : Prop := s.block.isSome → s.seenDirective

variable {s : LexerState} {n : Nat} {line : Text} {t : Tag} {w : List Tag}

theorem nil_mem_rest : [] ∈ s.rest ↔ s.block = none := by
  unfold rest
  cases hb : s.block with
  | some b => simpa using Tag.nil_mem_inside
  | none =>
    simp only [iff_true]
    split
    · exact Language.nil_mem_kstar _
    · rw [Tag.grammar_eq]
      exact .inl (Language.nil_mem_kstar _)

/-- A tag is allowed exactly if something may follow the state that starts with it. -/
theorem cons_mem_rest (hs : s.Sound) (n : Nat) (line : Text) :
    t :: w ∈ s.rest ↔ s.accepts t ∧ w ∈ (s.after n line t).rest := by
  unfold rest
  cases hb : s.block with
  | some b =>
    have hseen : s.seenDirective := hs (by rw [hb]; rfl)
    rw [Tag.cons_mem_inside]
    cases t <;> simp [accepts, after, hb, hseen, eq_comm]
  | none =>
    cases hseen : s.seenDirective with
    | true =>
      simp only [↓reduceIte, Tag.cons_mem_regions]
      cases t <;> simp [accepts, after, hb, hseen]
    | false =>
      simp only [Bool.false_eq_true, ↓reduceIte, Tag.grammar_eq, Language.mem_add, Tag.cons_mem_regions,
        Tag.cons_mem_singleton_mul]
      cases t <;> simp [accepts, after, hb, hseen]

/-- Something may follow every state. -/
theorem exists_mem_rest (s : LexerState) : ∃ w, w ∈ s.rest := by
  cases hb : s.block with
  | some b =>
    refine ⟨[.closing b.block], ?_⟩
    have hnil : [] ∈ Tag.region∗ := Language.nil_mem_kstar _
    simp only [rest, hb, Tag.cons_mem_inside]
    exact .inr ⟨trivial, hnil⟩
  | none => exact ⟨[], nil_mem_rest.2 hb⟩

theorem sound_after (s : LexerState) (n : Nat) (line : Text) (t : Tag) : (s.after n line t).Sound := by
  cases t <;> simp [Sound, after]

end LexerState

/-! ### What the lexer says about the lines of a file -/

/-- The tag of a line, if it is a directive. -/
def tagOf? (styles : List CommentStyle) (line : Text) : Option Tag :=
  (Directive.readAny? styles (lineBody line)).map Directive.tag

/-- The tags of the directives among some lines. -/
def tagsOf (styles : List CommentStyle) (lines : List Text) : List Tag := lines.filterMap (tagOf? styles)

namespace Tag

/-- Whether a tag begins or ends a block. -/
def isBoundary : Tag → Bool
  | opening _ | closing _ => true
  | marker | stub => false

/-- The block in which the line after some tags stands: the one that the last boundary opens, if it opens one. -/
def enclosing (ts : List Tag) : Option Block :=
  match (ts.filter isBoundary).getLast? with
  | some (opening b) => some b
  | _ => none

theorem enclosing_concat (ts : List Tag) (t : Tag) :
    enclosing (ts ++ [t]) =
      match t with
      | opening b => some b
      | closing _ => none
      | marker | stub => enclosing ts := by
  cases t <;> simp [enclosing, List.filter_append, isBoundary]

end Tag

/-- How a line is tagged when the given tags stand before it. -/
def tagLine (styles : List CommentStyle) (before : List Tag) (line : Text) : TaggedLine :=
  match Directive.readAny? styles (lineBody line) with
  | some d => ⟨d.tag.kind, d.replace line, line⟩
  | none =>
    match Tag.enclosing before with
    | some b => ⟨b.kind, line, line⟩
    | none => ⟨.plain, line, line⟩

/-- Every line of a file, tagged according to what stands before it. -/
def tagging (styles : List CommentStyle) (lines : List Text) : List TaggedLine :=
  lines.mapIdx fun i line => tagLine styles (tagsOf styles (lines.take i)) line

section

variable {styles : List CommentStyle} {before rest : List Text} {line : Text}

theorem tagsOf_append (lines lines' : List Text) :
    tagsOf styles (lines ++ lines') = tagsOf styles lines ++ tagsOf styles lines' :=
  List.filterMap_append

theorem tagsOf_concat_of_none (h : tagOf? styles line = none) :
    tagsOf styles (before ++ [line]) = tagsOf styles before := by
  simp [tagsOf, h]

theorem tagsOf_concat_of_some {t : Tag} (h : tagOf? styles line = some t) :
    tagsOf styles (before ++ [line]) = tagsOf styles before ++ [t] := by
  simp [tagsOf, h]

theorem tagging_concat (before : List Text) (line : Text) :
    tagging styles (before ++ [line]) = tagging styles before ++ [tagLine styles (tagsOf styles before) line] := by
  unfold tagging
  rw [List.mapIdx_concat]
  congr 1
  · apply List.mapIdx_eq_mapIdx_iff.2
    intro i hi
    rw [List.take_append_of_le_length (Nat.le_of_lt hi)]
  · simp

/-- What holds when the lexer has tagged the lines `before` and is in state `s`. -/
private structure Reached (styles : List CommentStyle) (before : List Text) (ls : List TaggedLine)
    (s : LexerState) : Prop where
  tagged : ls = tagging styles before
  sound : s.Sound
  rest_iff : ∀ w, tagsOf styles before ++ w ∈ Tag.grammar ↔ w ∈ s.rest
  enclosing : Tag.enclosing (tagsOf styles before) = s.block.map OpenBlock.block
  opened : ∀ b, s.block = some b → ∃ i, b.lineNumber = i + 1 ∧ before[i]? = some b.line ∧
    tagOf? styles b.line = some (.opening b.block) ∧ ∀ t ∈ tagsOf styles (before.drop (i + 1)), t = .stub

namespace Reached

variable {ls : List TaggedLine} {l : TaggedLine} {s s' : LexerState}

private theorem start (styles : List CommentStyle) : Reached styles [] [] {} where
  tagged := rfl
  sound := nofun
  rest_iff _ := Iff.rfl
  enclosing := rfl
  opened := nofun

private theorem viable (h : Reached styles before ls s) : Tag.Viable (tagsOf styles before) := by
  obtain ⟨w, hw⟩ := s.exists_mem_rest
  exact ⟨w, (h.rest_iff w).2 hw⟩

/-- A line without directive leaves everything as it is. -/
private theorem plain (h : Reached styles before ls s) (hd : Directive.readAny? styles (lineBody line) = none) :
    Reached styles (before ++ [line]) (ls ++ [⟨s.kind, line, line⟩]) s := by
  have ht : tagOf? styles line = none := by simp [tagOf?, hd]
  refine ⟨?_, h.sound, ?_, ?_, ?_⟩
  · rw [tagging_concat, h.tagged, tagLine, hd, h.enclosing]
    cases hb : s.block <;> simp [LexerState.kind, hb]
  · rw [tagsOf_concat_of_none ht]
    exact h.rest_iff
  · rw [tagsOf_concat_of_none ht]
    exact h.enclosing
  · intro b hb
    obtain ⟨i, hn, hline, htag, hstubs⟩ := h.opened b hb
    obtain ⟨hi, -⟩ := List.getElem?_eq_some_iff.1 hline
    refine ⟨i, hn, by rw [List.getElem?_append_left hi, hline], htag, ?_⟩
    rw [List.drop_append_of_le_length hi, tagsOf_concat_of_none ht]
    exact hstubs

/-- The opening of the block that is open after an allowed tag: this line, or, after a stub, the same as before. -/
private theorem opened_after {t : Tag} (h : Reached styles before ls s) (ht : tagOf? styles line = some t)
    (hacc : s.accepts t) : ∀ b, (s.after (before.length + 1) line t).block = some b →
      ∃ i, b.lineNumber = i + 1 ∧ (before ++ [line])[i]? = some b.line ∧
        tagOf? styles b.line = some (.opening b.block) ∧
        ∀ t ∈ tagsOf styles ((before ++ [line]).drop (i + 1)), t = .stub := by
  intro b hb
  cases t with
  | marker =>
    -- an open block implies an earlier directive, so the marker would not be allowed
    have hseen : s.seenDirective := h.sound (by rw [show s.block = some b from hb]; rfl)
    simp [LexerState.accepts, hseen] at hacc
  | stub =>
    obtain ⟨i, hn, hline, htag, hstubs⟩ := h.opened b hb
    obtain ⟨hi, -⟩ := List.getElem?_eq_some_iff.1 hline
    refine ⟨i, hn, by rw [List.getElem?_append_left hi, hline], htag, ?_⟩
    rw [List.drop_append_of_le_length hi, tagsOf_concat_of_some ht]
    intro t hmem
    rcases List.mem_append.1 hmem with hmem | hmem
    · exact hstubs t hmem
    · exact List.mem_singleton.1 hmem
  | opening b' =>
    simp only [LexerState.after, Option.some.injEq] at hb
    subst hb
    refine ⟨before.length, rfl, by simp, ht, ?_⟩
    simp [tagsOf]
  | closing b' => simp [LexerState.after] at hb

/-- A directive that is allowed leads on. -/
private theorem directive {d : Directive} (h : Reached styles before ls s)
    (hd : Directive.readAny? styles (lineBody line) = some d) (hacc : s.accepts d.tag) :
    Reached styles (before ++ [line]) (ls ++ [⟨d.tag.kind, d.replace line, line⟩])
      (s.after (before.length + 1) line d.tag) := by
  have ht : tagOf? styles line = some d.tag := by simp [tagOf?, hd]
  refine ⟨?_, s.sound_after _ _ _, ?_, ?_, h.opened_after ht hacc⟩
  · rw [tagging_concat, h.tagged, tagLine, hd]
  · intro w
    rw [tagsOf_concat_of_some ht, List.append_assoc, h.rest_iff, List.singleton_append,
      LexerState.cons_mem_rest h.sound (before.length + 1) line]
    exact and_iff_right hacc
  · rw [tagsOf_concat_of_some ht, Tag.enclosing_concat, h.enclosing]
    cases d.tag <;> rfl

/-- What holds before a line holds after it. -/
private theorem step (h : Reached styles before ls s)
    (hstep : Lexer.step styles s (before.length + 1) line = .ok (l, s')) :
    Reached styles (before ++ [line]) (ls ++ [l]) s' := by
  rw [Lexer.step_eq] at hstep
  split at hstep
  · rename_i hd
    cases hstep
    exact h.plain hd
  · rename_i d hd
    split at hstep
    · rename_i hacc
      cases hstep
      exact h.directive hd hacc
    · cases hstep

/-- A line that is refused holds a tag with which no word of the grammar goes on. -/
private theorem refused {fault : TagFault} (h : Reached styles before ls s)
    (hstep : Lexer.step styles s (before.length + 1) line = .error fault) :
    ∃ t, tagOf? styles line = some t ∧ ¬ Tag.Viable (tagsOf styles (before ++ [line])) ∧
      fault = ⟨if t = .marker then .markerFirst else .balance, before.length + 1, line⟩ := by
  rw [Lexer.step_eq] at hstep
  split at hstep
  · cases hstep
  · rename_i d hd
    split at hstep
    · cases hstep
    · rename_i hacc
      cases hstep
      have ht : tagOf? styles line = some d.tag := by simp [tagOf?, hd]
      refine ⟨d.tag, ht, ?_, ?_⟩
      · rintro ⟨w, hw⟩
        rw [tagsOf_concat_of_some ht, List.append_assoc, h.rest_iff, List.singleton_append,
          LexerState.cons_mem_rest h.sound (before.length + 1) line] at hw
        exact hacc hw.1
      · cases d.tag <;> rfl

/-- A run tags all lines, or it stops at a line that is refused. -/
private theorem run (h : Reached styles before ls s) (rest : List Text) :
    let r := Lexer.run styles s (before.length + 1) rest
    (∃ s', Reached styles (before ++ rest) (ls ++ r.1) s' ∧
      r.2 = s'.block.map fun b => ⟨.balance, b.lineNumber, b.line⟩) ∨
    ∃ done line left s' fault, rest = done ++ line :: left ∧ Reached styles (before ++ done) (ls ++ r.1) s' ∧
      Lexer.step styles s' ((before ++ done).length + 1) line = .error fault ∧ r.2 = some fault := by
  induction rest generalizing before ls s with
  | nil => exact .inl ⟨s, by simpa [Lexer.run] using h, rfl⟩
  | cons line rest ih =>
    cases hstep : Lexer.step styles s (before.length + 1) line with
    | error fault =>
      rw [Lexer.run_cons_of_error hstep]
      exact .inr ⟨[], line, rest, s, fault, rfl, by simpa using h, by simpa using hstep, rfl⟩
    | ok r =>
      rw [Lexer.run_cons_of_ok hstep]
      have hnext := ih (h.step hstep)
      rw [List.length_append, List.length_singleton] at hnext
      rcases hnext with ⟨s', hs', hfault⟩ | ⟨done, line', left, s', fault, hrest, hs', hstop, hfault⟩
      · exact .inl ⟨s', by simpa using hs', hfault⟩
      · exact .inr ⟨line :: done, line', left, s', fault, by rw [hrest]; rfl, by simpa using hs', by simpa using hstop,
          hfault⟩

end Reached

/-- A run without fault tags every line. -/
theorem tagging_of_none {lines : List Text} (h : (tagLines styles lines).2 = none) :
    (tagLines styles lines).1 = tagging styles lines := by
  rcases (Reached.start styles).run lines with ⟨s, hs, -⟩ | ⟨done, line, left, s, f, -, -, -, hfault⟩
  · exact hs.tagged
  · exact absurd (h.symm.trans hfault) nofun

end

/-- The lexer follows the grammar of tags.  It finds no fault exactly if the tags of the lines are a word of the
grammar, and then it tags every line.  If the tags cannot go on to a word of the grammar, it stops at the first line
after which they cannot, and names this line.  Otherwise a block is open at the end, which holds nothing but stubs,
and it names the line on which this block begins. -/
theorem tagLines_grammar (styles : List CommentStyle) (lines : List Text) :
    let tagged := (tagLines styles lines).1
    let fault := (tagLines styles lines).2
    (fault = none ↔ tagsOf styles lines ∈ Tag.grammar) ∧
    (fault = none → tagged = tagging styles lines) ∧
    (¬ Tag.Viable (tagsOf styles lines) →
      ∃ i line t, lines[i]? = some line ∧ tagOf? styles line = some t ∧
        Tag.Viable (tagsOf styles (lines.take i)) ∧ ¬ Tag.Viable (tagsOf styles (lines.take (i + 1))) ∧
        tagged = tagging styles (lines.take i) ∧
        fault = some ⟨if t = .marker then .markerFirst else .balance, i + 1, line⟩) ∧
    (Tag.Viable (tagsOf styles lines) → tagsOf styles lines ∉ Tag.grammar →
      ∃ i line b, lines[i]? = some line ∧ tagOf? styles line = some (.opening b) ∧
        (∀ t ∈ tagsOf styles (lines.drop (i + 1)), t = .stub) ∧
        tagged = tagging styles lines ∧ fault = some ⟨.balance, i + 1, line⟩) := by
  intro tagged fault
  rcases (Reached.start styles).run lines with ⟨s, hs, hfault⟩ | ⟨done, line, left, s, f, hlines, hs, hstop, hfault⟩
  · -- all lines are tagged
    have hword : tagsOf styles lines ∈ Tag.grammar ↔ s.block = none := by
      rw [← LexerState.nil_mem_rest, ← hs.rest_iff, List.append_nil]
      rfl
    have hnone : fault = none ↔ s.block = none := by
      rw [show fault = _ from hfault, Option.map_eq_none_iff]
    refine ⟨hnone.trans hword.symm, fun _ => hs.tagged, fun hnot => absurd hs.viable hnot, fun _ hnot => ?_⟩
    cases hb : s.block with
    | none => exact absurd (hword.2 hb) hnot
    | some b =>
      obtain ⟨i, hn, hline, htag, hstubs⟩ := hs.opened b hb
      refine ⟨i, b.line, b.block, hline, htag, hstubs, hs.tagged, ?_⟩
      rw [show fault = _ from hfault, hb, ← hn]
      rfl
  · -- the run stops at `line`
    obtain ⟨t, ht, hnot, rfl⟩ := hs.refused hstop
    have htake : lines.take done.length = done := by rw [hlines, List.take_left]
    have htake' : lines.take (done.length + 1) = done ++ [line] := by rw [hlines]; simp [List.take_append]
    have hdead : ¬ Tag.Viable (tagsOf styles lines) := by
      rw [← List.take_append_drop (done.length + 1) lines, tagsOf_append, htake']
      exact fun hv => hnot hv.of_append
    have hsome : fault = some _ := hfault
    refine ⟨⟨fun h => (nomatch hsome.symm.trans h), fun hw => absurd ⟨[], by simpa using hw⟩ hdead⟩,
      fun h => (nomatch hsome.symm.trans h), fun _ => ?_, fun hv => absurd hv hdead⟩
    refine ⟨done.length, line, t, by rw [hlines]; simp, ht, ?_, ?_, ?_, hsome⟩
    · rw [htake]; exact hs.viable
    · rw [htake']; exact hnot
    · rw [htake]; exact hs.tagged

end Handout
