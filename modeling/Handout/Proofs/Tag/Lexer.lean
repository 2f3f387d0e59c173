import Handout.Tag.Lexer

/-!
# Runs of the lexer

To the lexer a directive is one of six tags.  Whether a tag is allowed and which state it leads to is decided by
the tag and the state alone (`LexerState.accepts`, `LexerState.after`); `step_eq` says that a step does just this.
A run then yields one tagged line for each line up to the first tag that is not allowed: `raws_run` says which lines
are covered, `fault_of_length_lt` which line breaks a rule when the run stops early.
-/

namespace Handout

/-- What a directive means to the lexer. -/
inductive Tag where
  | marker
  | stub
  | opening (b : Block)
  | closing (b : Block)
deriving DecidableEq, Repr

namespace Tag

/-- The kind of a line with a tag. -/
def kind : Tag → SpanKind
  | marker => .solutionFileMarker
  | stub => .stub
  | opening b | closing b => b.kind

/-- The rule that a misplaced tag breaks. -/
def rule : Tag → TagRule
  | marker => .markerFirst
  | stub | opening _ | closing _ => .balance

end Tag

namespace Directive

/-- The tag of a directive. -/
def tag : Directive → Tag
  | stub _ _ => .stub
  | keyword _ .solutionFile _ => .marker
  | keyword _ .beginSolution _ => .opening .solution
  | keyword _ .beginHidden _ => .opening .hidden
  | keyword _ .endSolution _ => .closing .solution
  | keyword _ .endHidden _ => .closing .hidden

/-- What takes the place of a line that is a directive. -/
def replace (line : Text) : Directive → Text
  | stub indent replacement => indent ++ replacement ++ lineEnd line
  | keyword _ _ _ => []

end Directive

namespace LexerState

/-- The kind of a line without directive. -/
def kind (s : LexerState) : SpanKind :=
  match s.block with
  | some b => b.block.kind
  | none => .plain

/-- Whether a tag is allowed. -/
def accepts (s : LexerState) : Tag → Bool
  | .marker => !s.seenDirective
  | .stub => true
  | .opening _ => s.block.isNone
  | .closing b => s.block.map OpenBlock.block = some b

/-- The state after a tag on the line with number `n`. -/
def after (s : LexerState) (n : Nat) (line : Text) : Tag → LexerState
  | .marker | .stub => { s with seenDirective := true }
  | .opening b => ⟨some ⟨b, n, line⟩, true⟩
  | .closing _ => { s with block := none }

end LexerState

namespace Lexer

variable {styles : List CommentStyle} {s s' : LexerState} {n : Nat} {line : Text} {lines : List Text}
  {tagged : TaggedLine} {fault : TagFault}

/-- A line without directive gets the kind of the open block; one with a directive is replaced if the tag is
allowed, and breaks the rule of its tag otherwise. -/
theorem step_eq (styles : List CommentStyle) (s : LexerState) (n : Nat) (line : Text) :
    step styles s n line =
      match Directive.readAny? styles (lineBody line) with
      | none => .ok (⟨s.kind, line, line⟩, s)
      | some d =>
        if s.accepts d.tag then .ok (⟨d.tag.kind, d.replace line, line⟩, s.after n line d.tag)
        else .error ⟨d.tag.rule, n, line⟩ := by
  unfold step
  cases hd : Directive.readAny? styles (lineBody line) with
  | none => rfl
  | some d =>
    rcases d with ⟨indent, k, written⟩ | ⟨indent, replacement⟩
    · cases k
      case solutionFile =>
        cases hs : s.seenDirective <;>
          simp [LexerState.accepts, LexerState.after, Directive.tag, Directive.replace, Tag.kind, Tag.rule, hs]
      case beginSolution | beginHidden =>
        cases hb : s.block <;>
          simp [openBlock, LexerState.accepts, LexerState.after, Directive.tag, Directive.replace, Tag.kind,
            Tag.rule, hb]
      case endSolution | endHidden =>
        simp only [closeBlock, LexerState.accepts, Directive.tag, decide_eq_true_eq]
        rfl
    · rfl

theorem raw_of_step (h : step styles s n line = .ok (tagged, s')) : tagged.raw = line := by
  rw [step_eq] at h
  split at h
  · cases h; rfl
  · split at h
    · cases h; rfl
    · cases h

theorem fault_of_step (h : step styles s n line = .error fault) :
    fault.lineNumber = n ∧ fault.line = line := by
  rw [step_eq] at h
  split at h
  · cases h
  · split at h
    · cases h
    · cases h; exact ⟨rfl, rfl⟩

theorem run_cons_of_error (h : step styles s n line = .error fault) :
    run styles s n (line :: lines) = ([], some fault) := by
  rw [run, h]

theorem run_cons_of_ok (h : step styles s n line = .ok (tagged, s')) :
    run styles s n (line :: lines) =
      (tagged :: (run styles s' (n + 1) lines).1, (run styles s' (n + 1) lines).2) := by
  rw [run, h]

/-- The tagged lines are the first lines of the file, in order. -/
theorem raws_run (styles : List CommentStyle) (s : LexerState) (n : Nat) (lines : List Text) :
    (run styles s n lines).1.map TaggedLine.raw = lines.take (run styles s n lines).1.length := by
  induction lines generalizing s n with
  | nil => rfl
  | cons line rest ih =>
    cases hstep : step styles s n line with
    | error fault => simp [run_cons_of_error hstep]
    | ok r => simp [run_cons_of_ok hstep, raw_of_step hstep, ih]

theorem length_run_le (styles : List CommentStyle) (s : LexerState) (n : Nat) (lines : List Text) :
    (run styles s n lines).1.length ≤ lines.length := by
  have h := congrArg List.length (raws_run styles s n lines)
  rw [List.length_map, List.length_take] at h
  omega

/-- A run without fault tags all lines. -/
theorem length_run_of_none (h : (run styles s n lines).2 = none) :
    (run styles s n lines).1.length = lines.length := by
  induction lines generalizing s n with
  | nil => rfl
  | cons line rest ih =>
    cases hstep : step styles s n line with
    | error fault => simp [run_cons_of_error hstep] at h
    | ok r =>
      rw [run_cons_of_ok hstep] at h ⊢
      simp [ih h]

/-- A run that does not tag all lines stops at the first one that is left. -/
theorem fault_of_length_lt (h : (run styles s n lines).1.length < lines.length) :
    ∃ fault, (run styles s n lines).2 = some fault ∧
      lines[(run styles s n lines).1.length]? = some fault.line ∧
      fault.lineNumber = n + (run styles s n lines).1.length := by
  induction lines generalizing s n with
  | nil => cases h
  | cons line rest ih =>
    cases hstep : step styles s n line with
    | error fault =>
      obtain ⟨hn, hline⟩ := fault_of_step hstep
      rw [run_cons_of_error hstep]
      exact ⟨fault, rfl, by rw [hline]; rfl, hn⟩
    | ok r =>
      rw [run_cons_of_ok hstep] at h ⊢
      obtain ⟨fault, hf, hline, hn⟩ := ih (Nat.lt_of_succ_lt_succ h)
      refine ⟨fault, hf, hline, ?_⟩
      rw [hn, List.length_cons]
      omega

/-- The block that a state remembers was opened before the line with number `n`. -/
private theorem lineNumber_lt_of_step (hs : ∀ b, s.block = some b → b.lineNumber < n)
    (h : step styles s n line = .ok (tagged, s')) : ∀ b, s'.block = some b → b.lineNumber < n + 1 := by
  rw [step_eq] at h
  split at h
  · cases h
    exact fun b hb => Nat.lt_succ_of_lt (hs b hb)
  · rename_i d _
    split at h
    · cases h
      intro b hb
      cases htag : d.tag with
      | marker | stub => exact Nat.lt_succ_of_lt (hs b (by simpa [LexerState.after, htag] using hb))
      | opening b' =>
        simp only [LexerState.after, htag, Option.some.injEq] at hb
        subst hb
        exact Nat.lt_succ_self n
      | closing b' => simp [LexerState.after, htag] at hb
    · cases h

/-- When all lines are tagged, a fault concerns one of them: the line on which the open block begins. -/
theorem lineNumber_lt_of_length_eq (hs : ∀ b, s.block = some b → b.lineNumber < n)
    (hall : (run styles s n lines).1.length = lines.length) (h : (run styles s n lines).2 = some fault) :
    fault.lineNumber < n + (run styles s n lines).1.length := by
  induction lines generalizing s n with
  | nil =>
    obtain ⟨b, hb, rfl⟩ := Option.map_eq_some_iff.1 h
    exact hs b hb
  | cons line rest ih =>
    cases hstep : step styles s n line with
    | error fault => simp [run_cons_of_error hstep] at hall
    | ok r =>
      rw [run_cons_of_ok hstep] at hall h ⊢
      have := ih (lineNumber_lt_of_step hs hstep) (Nat.succ.inj hall) h
      rw [List.length_cons]
      omega

end Lexer

end Handout
