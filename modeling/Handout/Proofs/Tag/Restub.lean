import Handout.Proofs.Tag.Directive
import Handout.Proofs.Tag.Redaction
import Handout.Proofs.Text.Decoding

/-!
# Outputs have no tags

An output is made of lines without directives and of replacements.  A replacement may be a directive itself, and
bytes that are fewer may be taken for another encoding; if neither happens (`Settles`), the output is read back as it
has been written, none of its lines is a directive, and filtering it again changes nothing (`render_settled`).
-/

namespace Handout

open Encoding

variable {styles : List CommentStyle} {keep : SpanFilter} {extension : String} {data : Bytes} {before : List Tag}
  {lines : List Text} {line text : Text} {l : TaggedLine} {e : Encoding}

/-! ### What an encoding tells apart -/

theorem decode_represents (data : Bytes) : (decode data).encoding.Represents (decode data).text := by
  unfold decode
  split
  · exact represents_of_decode? (e := latin1) (b := data) rfl
  · split
    · rename_i htext
      exact represents_of_decode? htext
    · exact represents_of_decode? (e := latin1) (b := data) rfl

theorem Encoding.Represents.encode_inj {t u : Text} (ht : e.Represents t) (hu : e.Represents u)
    (h : e.encode t = e.encode u) : t = u := by
  have hread := ht.decode?_encode
  rw [h, hu.decode?_encode] at hread
  exact (Option.some.inj hread).symm

private theorem isPair_lineEnd {c d : Nat} (h : Text.isLineEnd c = true ∨ Text.isLineEnd d = true) :
    isPair c d = false := by
  simp only [Text.isLineEnd, Bool.or_eq_true, beq_iff_eq] at h
  exact isPair_eq_false (by omega)

private theorem isLineEnd_of_mem_lineEnd (h : IsLine line) {c : Nat} (hc : c ∈ lineEnd line) :
    Text.isLineEnd c = true := by
  have ht := h.terminator
  simp only [List.mem_cons, List.not_mem_nil, or_false] at ht
  rcases ht with ht | ht | ht | ht <;> rw [ht] at hc <;>
    simp only [List.mem_cons, List.not_mem_nil, or_false] at hc
  · rw [hc]
    rfl
  · rw [hc]
    rfl
  · rcases hc with rfl | rfl <;> rfl

/-- Lines that can be represented can be put together. -/
theorem represents_flatten (hlines : ∀ l ∈ lines, IsLine l ∧ e.Represents l)
    (hends : lines.Pairwise fun a _ => a = [] ∨ lineEnd a ≠ []) : e.Represents lines.flatten := by
  induction lines with
  | nil => exact ⟨nofun, fun _ _ => List.isChain_nil⟩
  | cons line rest ih =>
    obtain ⟨⟨hline, hrep⟩, hlines⟩ := List.forall_mem_cons.1 hlines
    obtain ⟨hend, hends⟩ := List.pairwise_cons.1 hends
    refine hrep.append (ih hlines hends) fun c hc d hd => ?_
    cases rest with
    | nil => cases hd
    | cons next rest =>
      rcases hend next List.mem_cons_self with rfl | hne
      · cases hc
      · refine isPair_lineEnd (.inl (isLineEnd_of_mem_lineEnd hline ?_))
        rw [← lineBody_append_lineEnd line, List.getLast?_append_of_ne_nil _ hne] at hc
        exact List.mem_of_mem_getLast? hc

/-! ### What takes the place of a line -/

/-- A line is taken as it is, left out, or replaced. -/
theorem text_tagLine (styles : List CommentStyle) (before : List Tag) (line : Text) :
    (tagLine styles before line).text = line ∧ Directive.readAny? styles (lineBody line) = none ∨
    (tagLine styles before line).text = [] ∨
    (tagLine styles before line).kind = .stub ∧ ∃ indent replacement,
      Directive.readAny? styles (lineBody line) = some (.stub indent replacement) ∧
        (tagLine styles before line).text = indent ++ replacement ++ lineEnd line := by
  unfold tagLine
  cases hd : Directive.readAny? styles (lineBody line) with
  | none => cases Tag.enclosing before <;> exact .inl ⟨rfl, rfl⟩
  | some d =>
    cases d with
    | keyword indent k written => exact .inr (.inl rfl)
    | stub indent replacement => exact .inr (.inr ⟨rfl, indent, replacement, rfl, rfl⟩)

/-- A replacement is a line as well, with the terminator of the line that it takes the place of. -/
theorem isLine_replacement (hline : IsLine line) {indent replacement : Text}
    (h : Directive.readAny? styles (lineBody line) = some (.stub indent replacement)) :
    IsLine (indent ++ replacement ++ lineEnd line) ∧
      lineBody (indent ++ replacement ++ lineEnd line) = indent ++ replacement ∧
      lineEnd (indent ++ replacement ++ lineEnd line) = lineEnd line := by
  obtain ⟨rest, hbody, -, hpart⟩ := Directive.parts_of_readAny? h
  have hplain : ∀ c ∈ indent ++ replacement, Text.isLineEnd c = false := by
    intro c hc
    refine hline.body c ?_
    rw [hbody]
    exact (List.mem_append.1 hc).elim (List.mem_append_left _) fun hc => List.mem_append_right _ (hpart.subset hc)
  exact ⟨isLine_append hplain hline.terminator, lineBody_append hplain hline.terminator⟩

/-- A replacement can be represented if its line can be: its parts meet at a blank and at the terminator. -/
theorem represents_replacement (hline : IsLine line) (hrep : e.Represents line) {indent replacement : Text}
    (h : Directive.readAny? styles (lineBody line) = some (.stub indent replacement)) :
    e.Represents (indent ++ replacement ++ lineEnd line) := by
  obtain ⟨rest, hbody, hblank, hpart⟩ := Directive.parts_of_readAny? h
  have hbody' : e.Represents (indent ++ rest) := by
    rw [← hbody]
    exact hrep.of_piece (prefix_lineBody line).isInfix
  have hend : e.Represents (lineEnd line) := hrep.of_piece (List.drop_suffix _ _).isInfix
  have hindent : e.Represents indent := hbody'.of_piece (List.prefix_append _ _).isInfix
  have hreplacement : e.Represents replacement := hbody'.of_piece (hpart.trans (List.suffix_append _ _).isInfix)
  refine (hindent.append hreplacement fun c hc d _ => ?_).append hend fun c _ d hd => ?_
  · have hc := hblank c (List.mem_of_mem_getLast? hc)
    simp only [Text.isBlank, Bool.or_eq_true, Bool.and_eq_true, decide_eq_true_eq, beq_iff_eq] at hc
    exact isPair_eq_false (.inl (by omega))
  · exact isPair_lineEnd (.inr (isLineEnd_of_mem_lineEnd hline (List.mem_of_mem_head? hd)))

/-! ### The output of a file -/

private theorem raws_tagging (styles : List CommentStyle) (lines : List Text) :
    (tagging styles lines).map TaggedLine.raw = lines := by
  induction lines using List.reverseRecOn with
  | nil => rfl
  | append_singleton before line ih =>
    rw [tagging_concat, List.map_append, ih, List.map_singleton]
    congr 2
    unfold tagLine
    cases Directive.readAny? styles (lineBody line) with
    | some d => rfl
    | none => cases Tag.enclosing (tagsOf styles before) <;> rfl

private theorem exists_of_mem_tagging (h : l ∈ tagging styles lines) :
    ∃ before, l.raw ∈ lines ∧ l = tagLine styles before l.raw := by
  obtain ⟨i, hi, rfl⟩ := List.mem_mapIdx.1 h
  have hraw : (tagLine styles (tagsOf styles (lines.take i)) lines[i]).raw = lines[i] := by
    unfold tagLine
    cases Directive.readAny? styles (lineBody lines[i]) with
    | some d => rfl
    | none => cases Tag.enclosing (tagsOf styles (lines.take i)) <;> rfl
  refine ⟨tagsOf styles (lines.take i), ?_, by rw [hraw]⟩
  rw [hraw]
  exact List.getElem_mem hi

/-- The lines of a text with what takes their place in an output. -/
def keptLines (keep : SpanFilter) (styles : List CommentStyle) (lines : List Text) : List Text :=
  ((tagging styles lines).filter fun l => keep l.kind).map TaggedLine.text

/-- Replacements, where they are kept, are no directives. -/
def Inert (keep : SpanFilter) (styles : List CommentStyle) (lines : List Text) : Prop :=
  keep .stub = true → ∀ line ∈ lines, ∀ indent replacement,
    Directive.readAny? styles (lineBody line) = some (.stub indent replacement) →
      Directive.readAny? styles (indent ++ replacement) = none

/-- Whether a line is no stub with a replacement that is a directive. -/
private def isInert (styles : List CommentStyle) (line : Text) : Bool :=
  match Directive.readAny? styles (lineBody line) with
  | some (.stub indent replacement) => (Directive.readAny? styles (indent ++ replacement)).isNone
  | _ => true

private theorem isInert_iff : isInert styles line = true ↔ ∀ indent replacement,
    Directive.readAny? styles (lineBody line) = some (.stub indent replacement) →
      Directive.readAny? styles (indent ++ replacement) = none := by
  unfold isInert
  split
  · rename_i indent replacement hd
    rw [Option.isNone_iff_eq_none]
    refine ⟨fun h indent' replacement' hd' => ?_, fun h => h indent replacement hd⟩
    cases hd.symm.trans hd'
    exact h
  · rename_i hno
    exact ⟨fun _ indent replacement hd => absurd hd (hno indent replacement), fun _ => rfl⟩

instance : Decidable (Inert keep styles lines) :=
  decidable_of_iff (keep .stub = true → ∀ line ∈ lines, isInert styles line = true)
    (forall_congr' fun _ => forall₂_congr fun _ _ => isInert_iff)

theorem isLine_of_mem_keptLines (h : text ∈ keptLines keep styles (splitLines line)) : IsLine text := by
  obtain ⟨l, hl, rfl⟩ := List.mem_map.1 h
  obtain ⟨before, hraw, hl⟩ := exists_of_mem_tagging (List.mem_filter.1 hl).1
  have hline := isLine_of_mem_splitLines hraw
  rw [hl]
  rcases text_tagLine styles before l.raw with ⟨h, -⟩ | h | ⟨-, indent, replacement, hd, h⟩
  · rwa [h]
  · rw [h]
    exact isLine_nil
  · rw [h]
    exact (isLine_replacement hline hd).1

theorem represents_of_mem_keptLines (hrep : e.Represents line) (h : text ∈ keptLines keep styles (splitLines line)) :
    e.Represents text := by
  obtain ⟨l, hl, rfl⟩ := List.mem_map.1 h
  obtain ⟨before, hraw, hl⟩ := exists_of_mem_tagging (List.mem_filter.1 hl).1
  have hraw' : e.Represents l.raw := by
    refine hrep.of_piece ?_
    have hpiece := List.infix_of_mem_flatten hraw
    rwa [flatten_splitLines] at hpiece
  rw [hl]
  rcases text_tagLine styles before l.raw with ⟨h, -⟩ | h | ⟨-, indent, replacement, hd, h⟩
  · rwa [h]
  · rw [h]
    exact ⟨nofun, fun _ _ => List.isChain_nil⟩
  · rw [h]
    exact represents_replacement (isLine_of_mem_splitLines hraw) hraw' hd

theorem readAny?_of_mem_keptLines (hinert : Inert keep styles (splitLines line))
    (h : text ∈ keptLines keep styles (splitLines line)) (hne : text ≠ []) :
    Directive.readAny? styles (lineBody text) = none := by
  obtain ⟨l, hl, rfl⟩ := List.mem_map.1 h
  obtain ⟨hl, hkeep⟩ := List.mem_filter.1 hl
  obtain ⟨before, hraw, hl⟩ := exists_of_mem_tagging hl
  rw [hl] at hne hkeep ⊢
  rcases text_tagLine styles before l.raw with ⟨h, hd⟩ | h | ⟨hkind, indent, replacement, hd, h⟩
  · rwa [h]
  · exact absurd h hne
  · rw [hkind] at hkeep
    rw [h, (isLine_replacement (isLine_of_mem_splitLines hraw) hd).2.1]
    exact hinert hkeep l.raw hraw indent replacement hd

/-- What takes the place of a line in front of others has a terminator, unless it is nothing. -/
theorem pairwise_keptLines (keep : SpanFilter) (styles : List CommentStyle) (t : Text) :
    (keptLines keep styles (splitLines t)).Pairwise fun a _ => a = [] ∨ lineEnd a ≠ [] := by
  have hraws : (tagging styles (splitLines t)).Pairwise fun a _ => lineEnd a.raw ≠ [] := by
    rw [← List.pairwise_map (f := TaggedLine.raw) (R := fun a _ => lineEnd a ≠ []), raws_tagging]
    exact pairwise_splitLines t
  refine List.pairwise_map.2 ((hraws.filter _).imp_of_mem fun {a b} ha _ hend => ?_)
  obtain ⟨before, hraw, ha⟩ := exists_of_mem_tagging (List.mem_filter.1 ha).1
  rw [ha]
  rcases text_tagLine styles before a.raw with ⟨h, -⟩ | h | ⟨-, indent, replacement, hd, h⟩
  · rw [h]
    exact .inr hend
  · exact .inl h
  · rw [h, (isLine_replacement (isLine_of_mem_splitLines hraw) hd).2.2]
    exact .inr hend

/-- No line of an output is a directive. -/
theorem readAny?_of_mem_splitLines {t : Text} (hinert : Inert keep styles (splitLines t))
    (h : line ∈ splitLines (keptLines keep styles (splitLines t)).flatten) :
    Directive.readAny? styles (lineBody line) = none := by
  obtain ⟨text, htext, hne, hbody⟩ :=
    exists_of_mem_splitLines (fun _ => isLine_of_mem_keptLines) (pairwise_keptLines keep styles t) h
  rw [hbody]
  exact readAny?_of_mem_keptLines hinert htext hne

/-! ### Filtering again -/

/-- A line without directive that stands in no block. -/
def TaggedLine.plain (line : Text) : TaggedLine := ⟨.plain, line, line⟩

theorem tagLines_plain (h : ∀ line ∈ lines, Directive.readAny? styles (lineBody line) = none) :
    tagLines styles lines = (lines.map TaggedLine.plain, none) := by
  suffices hrun : ∀ n, Lexer.run styles {} n lines = (lines.map TaggedLine.plain, none) from hrun 1
  induction lines with
  | nil => exact fun n => rfl
  | cons line rest ih =>
    intro n
    obtain ⟨hline, hrest⟩ := List.forall_mem_cons.1 h
    have hstep : Lexer.step styles {} n line = .ok (.plain line, {}) := by
      rw [Lexer.step_eq, hline]
      rfl
    rw [Lexer.run_cons_of_ok hstep, ih hrest]
    rfl

private theorem keptText_plain (hkeep : keep .plain = true) (lines : List Text) :
    keptText keep (lines.map TaggedLine.plain) = lines.flatten := by
  have hall : (lines.map TaggedLine.plain).filter (fun l => keep l.kind) = lines.map TaggedLine.plain := by
    refine List.filter_eq_self.2 fun l hl => ?_
    obtain ⟨line, -, rfl⟩ := List.mem_map.1 hl
    exact hkeep
  rw [keptText, hall, List.map_map]
  exact congrArg List.flatten (List.map_id lines)

private theorem render_append (spans spans' : List Span) :
    render keep (spans ++ spans') = render keep spans ++ render keep spans' := by
  simp [render]

private theorem kind_of_mem_plainSpan {span : Span} (h : span ∈ plainSpan data) : span.kind = .plain := by
  unfold plainSpan at h
  split at h
  · cases h
  · rw [List.mem_singleton.1 h]

private theorem render_plainSpan (hkeep : keep .plain = true) (data : Bytes) : render keep (plainSpan data) = data := by
  unfold plainSpan
  split
  · rename_i hempty
    rw [List.isEmpty_iff.1 hempty]
    rfl
  · simp [render, hkeep]

/-- A file of which an output is read as it has been written: replacements are no directives, and the output is
taken to be in the encoding of the file. -/
structure Settles (keep : SpanFilter) (extension : String) (data : Bytes) : Prop where
  inert : Inert keep ((CommentStyle.forExtension? extension).getD []) (splitLines (decode data).text)
  mark : (decode (render keep (parseTags extension data).spans)).mark = (decode data).mark
  encoding : (decode (render keep (parseTags extension data).spans)).encoding = (decode data).encoding

theorem settles_iff : Settles keep extension data ↔
    Inert keep ((CommentStyle.forExtension? extension).getD []) (splitLines (decode data).text) ∧
      (decode (render keep (parseTags extension data).spans)).mark = (decode data).mark ∧
      (decode (render keep (parseTags extension data).spans)).encoding = (decode data).encoding :=
  ⟨fun h => ⟨h.inert, h.mark, h.encoding⟩, fun ⟨hinert, hmark, hencoding⟩ => ⟨hinert, hmark, hencoding⟩⟩

instance : Decidable (Settles keep extension data) := decidable_of_iff _ settles_iff.symm

/-- The text of an output is what has been kept. -/
private theorem text_of_settles (hkeep : keep .plain = true) (hext : CommentStyle.forExtension? extension = some styles)
    (hfault : (parseTags extension data).fault = none) (h : Settles keep extension data) :
    (decode (render keep (parseTags extension data).spans)).text =
      (keptLines keep styles (splitLines (decode data).text)).flatten := by
  have hout : render keep (parseTags extension data).spans = _ := render_parseTags hext hfault
  have hmark := h.mark
  have hencoding := h.encoding
  generalize render keep (parseTags extension data).spans = out at hout hmark hencoding ⊢
  rw [render_plainSpan hkeep] at hout
  have hread := decode_represents out
  rw [hencoding] at hread
  have hkept : (decode data).encoding.Represents (keptLines keep styles (splitLines (decode data).text)).flatten :=
    represents_flatten
      (fun l hl => ⟨isLine_of_mem_keptLines hl, represents_of_mem_keptLines (decode_represents data) hl⟩)
      (pairwise_keptLines keep styles _)
  have hsame : (decode data).mark ++ (decode data).encoding.encode (decode out).text = out := by
    rw [← hmark, ← hencoding, mark_append_encode]
  exact hread.encode_inj hkept (List.append_cancel_left (hsame.trans hout))

/-- Filtering the output of a file finds no tags and changes nothing. -/
theorem render_settled (hkeep : keep .plain = true) (hfault : (parseTags extension data).fault = none)
    (h : Settles keep extension data) :
    let out := render keep (parseTags extension data).spans
    (parseTags extension out).fault = none ∧ (∀ span ∈ (parseTags extension out).spans, span.kind = .plain) ∧
      render keep (parseTags extension out).spans = out := by
  intro out
  cases hext : CommentStyle.forExtension? extension with
  | none =>
    have hparse : ∀ data, parseTags extension data = ⟨plainSpan data, none⟩ := fun data => by
      simp only [parseTags, hext]
    rw [hparse]
    exact ⟨rfl, fun span => kind_of_mem_plainSpan, render_plainSpan hkeep out⟩
  | some styles =>
    have hinert : Inert keep styles (splitLines (decode data).text) := by
      have hinert := h.inert
      rwa [hext, Option.getD_some] at hinert
    have htext : (decode out).text = _ := text_of_settles hkeep hext hfault h
    have hplain : ∀ line ∈ splitLines (decode out).text, Directive.readAny? styles (lineBody line) = none := by
      rw [htext]
      exact fun line => readAny?_of_mem_splitLines hinert
    have hparse : parseTags extension out = ⟨plainSpan (decode out).mark ++
        ((splitLines (decode out).text).map TaggedLine.plain).map (TaggedLine.span (decode out).encoding), none⟩ := by
      simp only [parseTags, hext, tagLines_plain hplain]
    rw [hparse]
    refine ⟨rfl, fun span hspan => ?_, ?_⟩
    · rcases List.mem_append.1 hspan with hspan | hspan
      · exact kind_of_mem_plainSpan hspan
      · obtain ⟨l, hl, rfl⟩ := List.mem_map.1 hspan
        obtain ⟨line, -, rfl⟩ := List.mem_map.1 hl
        rfl
    · rw [render_append, render_plainSpan hkeep, render_spans, keptText_plain hkeep, flatten_splitLines,
        mark_append_encode]

end Handout
