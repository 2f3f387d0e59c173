import Handout.Proofs.Files.Listable
import Handout.Proofs.Project.Ecosystem

/-!
# The marks of a project

In a directory in which there are no links and nothing is locked, all that is asked to recognize a project is answered,
and the answers depend on what is stored there.  An ecosystem recognizes a project that bears one of its marks
(`tells_recognizes`), and the first one in order of precedence that does so is found (`perform_find?`).
-/

namespace Handout

open Handout.Action Session

variable {α : Type} {s : Session} {p : Path} {d : Location} {rel : List String} {node : Option Node} {e : Ecosystem}

namespace Action

/-- An operation that answers a question and leaves the session as it is. -/
def Tells (s : Session) (act : Action Bool) (holds : Prop) : Prop :=
  ∃ b, act.perform s = (.ok b, s) ∧ (b = true ↔ holds)

variable {act next : Action Bool} {holds more : Prop} {test : α → Action Bool}

theorem Tells.congr (h : Tells s act holds) (hiff : holds ↔ more) : Tells s act more := by
  obtain ⟨b, hperform, hb⟩ := h
  exact ⟨b, hperform, hb.trans hiff⟩

theorem Tells.perform (h : Tells s act holds) [Decidable holds] : act.perform s = (.ok (decide holds), s) := by
  obtain ⟨b, hperform, hb⟩ := h
  rw [hperform, show b = decide holds from Bool.eq_iff_iff.2 (hb.trans decide_eq_true_iff.symm)]

/-- A question that is asked only if another one has been answered in the affirmative. -/
theorem Tells.and (h : Tells s act holds) (hnext : holds → Tells s next more) :
    Tells s (do if ← act then next else return false) (holds ∧ more) := by
  obtain ⟨b, hperform, hb⟩ := h
  cases b with
  | true =>
    have hholds := hb.1 rfl
    obtain ⟨b', hperform', hb'⟩ := hnext hholds
    exact ⟨b', (perform_bind_ok hperform _).trans hperform', hb'.trans (and_iff_right hholds).symm⟩
  | false =>
    refine ⟨false, perform_bind_ok hperform _, ?_⟩
    exact ⟨nofun, fun hand => hb.2 hand.1⟩

theorem Tells.anyOf {l : List α} {holds : α → Prop} (h : ∀ a ∈ l, Tells s (test a) (holds a)) :
    Tells s (Ecosystem.anyOf test l) (∃ a ∈ l, holds a) := by
  induction l with
  | nil => exact ⟨false, rfl, by simp⟩
  | cons a l ih =>
    obtain ⟨b, hperform, hb⟩ := h a (List.mem_cons_self ..)
    cases b with
    | true => exact ⟨true, perform_bind_ok hperform _, by simp [hb.1 rfl]⟩
    | false =>
      obtain ⟨b', hperform', hb'⟩ := ih fun x hx => h x (List.mem_cons_of_mem _ hx)
      refine ⟨b', (perform_bind_ok hperform _).trans hperform', hb'.trans ?_⟩
      have hnot : ¬ holds a := fun ha => Bool.false_ne_true (hb.2 ha)
      simp [hnot]

end Action

/-! ### Questions about a directory -/

/-- What proper names behind the path lead to is what is stored. -/
theorem Session.Listed.look_append (h : s.Listed p d) (hp : ∀ c ∈ rel, IsProper c) :
    s.look true (p.append rel) = .ok (s.files.get? (d ++ rel)) := by
  have hzero : (p.append rel).hasZero = false := by
    rw [Path.hasZero_append, h.reaches.hasZero, Bool.false_or, List.any_eq_false]
    intro c hc
    simpa using (hp c hc).noZero
  rw [look_append_of_short true h.leads h.sound (fun c hc => (hp c hc).plain) (fun first target _ _ => h.noLink first target)
    (.inr rfl) (fun c hc => (hp c hc).short), hzero, if_neg Bool.false_ne_true]

/-- A directory in a directory that can be listed. -/
theorem Session.Listed.below (h : s.Listed p d) (hrel : s.files.get? (d ++ rel) = some .directory) :
    s.Listed (p.append rel) (d ++ rel) where
  sound := h.sound
  reaches := h.reaches_append (by rw [hrel]; exact Option.some_ne_none _)
  directory := hrel
  noLink more := by
    rw [List.append_assoc]
    exact h.noLink (rel ++ more)
  unlocked more := by
    rw [Path.append_append]
    exact h.unlocked (rel ++ more)

theorem Session.Listed.not_locked (h : s.Listed p d) (rel : List String) : s.locked.contains (p.append rel) = false :=
  Bool.eq_false_iff.2 fun hc => h.unlocked rel (List.contains_iff_mem.1 hc)

theorem tells_isFile (h : s.Listed p d) (hp : ∀ c ∈ rel, IsProper c) (hne : rel ≠ []) :
    Tells s (isFile (p.append rel)) (isFileNode (s.files.get? (d ++ rel)) = true) := by
  have hfile : s.isFile? (p.append rel) = .ok (isFileNode (s.files.get? (d ++ rel))) := by
    unfold Session.isFile?
    rw [Path.parent_append p hne, h.not_locked, if_neg Bool.false_ne_true, h.look_append hp]
    rfl
  exact ⟨_, congrArg (·, s) hfile, Iff.rfl⟩

theorem tells_isDirectory (h : s.Listed p d) (hp : ∀ c ∈ rel, IsProper c) :
    Tells s (isDirectory (p.append rel)) (s.files.get? (d ++ rel) = some .directory) := by
  have hdirectory : s.isDirectory? (p.append rel) = .ok (isDirectoryNode (s.files.get? (d ++ rel))) := by
    unfold Session.isDirectory?
    rw [h.look_append hp]
    rfl
  exact ⟨_, congrArg (·, s) hdirectory, isDirectoryNode_iff⟩

theorem perform_visibleNames (h : s.Listed p d) : (Ecosystem.visibleNames p).perform s = (.ok (s.files.names d), s) := by
  have hlocked := h.not_locked []
  rw [Path.append_nil] at hlocked
  have hnames : s.names? p.written = .ok (s.files.names d) := by
    unfold Session.names?
    rw [show p.written.path = p from rfl, hlocked, if_neg Bool.false_ne_true, h.reaches.hasZero, if_neg Bool.false_ne_true,
      leadsTo_iff_find.1 h.leads]
  unfold Ecosystem.visibleNames
  rw [perform_tryCatch, show (names p.written).perform s = (s.names? p.written, s) from rfl, hnames]

namespace Ecosystem

/-! ### What a mark is -/

/-- What is stored at some names from the top of a project is a mark of an ecosystem: one of the files that it requires,
or for C# a project file among the sources or one level below. -/
def IsMark (e : Ecosystem) (rel : List String) (node : Option Node) : Prop :=
  match e with
  | csharp => node ≠ none ∧ ∃ between name, between.length ≤ 1 ∧ isProjectFile name = true ∧ rel = "src" :: (between ++ [name])
  | e => isFileNode node = true ∧ ∃ mark ∈ e.marks, rel = mark.parts

/-- A project with some content bears a mark of an ecosystem. -/
def IsBorne (e : Ecosystem) (content : Content) : Prop := ∃ rel, e.IsMark rel (content rel)

/-- The files that an ecosystem requires are at the top, or for Python in a directory of the exercise. -/
theorem parts_of_mem_marks : ∀ e : Ecosystem, ∀ mark ∈ e.marks, mark.isAbsolute = false ∧ (∀ c ∈ mark.parts, IsProper c) ∧
    (mark.parts.length = 1 ∨ e = python ∧ mark.parts.length = 2 ∧ mark.parts.head? ∈ [some "test", some "tmc"]) := by
  intro e
  cases e <;> decide +kernel

theorem IsMark.exists (h : e.IsMark rel node) : node ≠ none := by
  have hfile : isFileNode node = true → node ≠ none := by
    rintro hfile rfl
    cases hfile
  cases e with
  | csharp => exact h.1
  | _ => exact hfile h.1

/-- A mark is a file at the top of a project, or it is in one of three directories. -/
theorem IsMark.cases (h : e.IsMark rel node) : rel.length = 1 ∧ isFileNode node = true ∨
    (e = csharp ∨ e = python) ∧ ∃ first ∈ ["src", "test", "tmc"], ∃ rest, rest ≠ [] ∧ rel = first :: rest := by
  have hrequired : isFileNode node = true ∧ (∃ mark ∈ e.marks, rel = mark.parts) → rel.length = 1 ∧ isFileNode node = true ∨
      (e = csharp ∨ e = python) ∧ ∃ first ∈ ["src", "test", "tmc"], ∃ rest, rest ≠ [] ∧ rel = first :: rest := by
    rintro ⟨hfile, mark, hmark, rfl⟩
    rcases (parts_of_mem_marks e mark hmark).2.2 with hlength | ⟨rfl, hlength, hfirst⟩
    · exact .inl ⟨hlength, hfile⟩
    · obtain ⟨first, name, hparts⟩ := List.length_eq_two.1 hlength
      have hplace : first = "test" ∨ first = "tmc" := by simpa [hparts] using hfirst
      exact .inr ⟨.inr rfl, first, by simp [hplace], [name], List.cons_ne_nil _ _, hparts⟩
  cases e with
  | csharp =>
    obtain ⟨-, between, name, -, -, rfl⟩ := h
    exact .inr ⟨.inl rfl, "src", by simp, _, by simp, rfl⟩
  | _ => exact hrequired h

theorem IsMark.ne_nil (h : e.IsMark rel node) : rel ≠ [] := by
  rcases h.cases with ⟨hlength, -⟩ | ⟨-, first, -, rest, -, rfl⟩
  · rintro rfl
    cases hlength
  · exact List.cons_ne_nil _ _

/-- Whether something is a mark does not depend on the data of files. -/
theorem IsMark.congr {node' : Option Node} (h : e.IsMark rel node) (hfile : isFileNode node = isFileNode node')
    (hnone : node' = none → node = none) : e.IsMark rel node' := by
  cases e with
  | csharp => exact ⟨fun hnode => h.1 (hnone hnode), h.2⟩
  | _ => exact ⟨hfile ▸ h.1, h.2⟩

/-! ### Recognizing a project -/

private theorem tells_visible (h : s.Listed p d) :
    Tells s (do return (← visibleNames p).any isProjectFile)
      (∃ name, isProjectFile name = true ∧ s.files.get? (d ++ [name]) ≠ none) := by
  refine ⟨_, perform_bind_ok (perform_visibleNames h) _, ?_⟩
  rw [List.any_eq_true]
  refine exists_congr fun name => ?_
  rw [Files.mem_names, and_comm]

private theorem tells_leadsToProjectFile (h : s.Listed p d) (hp : ∀ c ∈ rel, IsProper c) :
    Tells s (leadsToProjectFile (p.append rel)) (s.files.get? (d ++ rel) = some .directory ∧
      ∃ name, isProjectFile name = true ∧ s.files.get? (d ++ rel ++ [name]) ≠ none) :=
  (tells_isDirectory h hp).and fun hd => tells_visible (h.below hd)

theorem tells_holdsProjectFile (h : s.Listed p d) :
    Tells s (holdsProjectFile p) (∃ between name, between.length ≤ 1 ∧ isProjectFile name = true ∧
      s.files.get? (d ++ (between ++ [name])) ≠ none) := by
  by_cases hdirect : (s.files.names d).any isProjectFile = true
  · refine ⟨true, ?_, ?_⟩
    · unfold holdsProjectFile
      rw [perform_bind_ok (perform_visibleNames h), if_pos hdirect]
      rfl
    · obtain ⟨name, hname, hfile⟩ := List.any_eq_true.1 hdirect
      exact iff_of_true rfl ⟨[], name, Nat.zero_le 1, hfile, Files.mem_names.1 hname⟩
  · have hbelow : Tells s (anyOf (fun c => leadsToProjectFile (p.child c)) (s.files.names d))
        (∃ c ∈ s.files.names d, s.files.get? (d ++ [c]) = some .directory ∧
          ∃ name, isProjectFile name = true ∧ s.files.get? (d ++ [c] ++ [name]) ≠ none) := by
      refine Tells.anyOf fun c hc => ?_
      rw [Path.child_eq_append]
      exact tells_leadsToProjectFile h (by simpa using h.sound.files.proper (Files.mem_names.1 hc))
    obtain ⟨b, hperform, hb⟩ := hbelow
    refine ⟨b, ?_, hb.trans ⟨?_, ?_⟩⟩
    · unfold holdsProjectFile
      rw [perform_bind_ok (perform_visibleNames h), if_neg hdirect]
      exact hperform
    · rintro ⟨c, -, -, name, hfile, hn⟩
      exact ⟨[c], name, Nat.le_refl 1, hfile, by rwa [← List.append_assoc]⟩
    · rintro ⟨between, name, hlength, hfile, hn⟩
      rcases between with _ | ⟨c, _ | ⟨c', rest⟩⟩
      · exact absurd (List.any_eq_true.2 ⟨name, Files.mem_names.2 hn, hfile⟩) hdirect
      · rw [← List.append_assoc] at hn
        have hdir := h.sound.files.parent hn
        exact ⟨c, Files.mem_names.2 (by rw [hdir]; exact Option.some_ne_none _), hdir, name, hfile, hn⟩
      · rw [List.length_cons, List.length_cons] at hlength
        omega

/-- A project is recognized by an ecosystem of which it bears a mark. -/
theorem tells_recognizes (h : s.Listed p d) (e : Ecosystem) :
    Tells s (e.recognizes p) (e.IsBorne (s.files.content d)) := by
  have hrequired : Tells s (anyOf (fun mark => isFile (p.join mark)) e.marks)
      (∃ rel, isFileNode (s.files.content d rel) = true ∧ ∃ mark ∈ e.marks, rel = mark.parts) := by
    have hmark : ∀ mark ∈ e.marks, Tells s (isFile (p.join mark)) (isFileNode (s.files.content d mark.parts) = true) := by
      intro mark hmark
      obtain ⟨hrelative, hproper, hlength⟩ := parts_of_mem_marks e mark hmark
      rw [Path.join_eq_append p hrelative]
      refine tells_isFile h hproper fun hnil => ?_
      rw [hnil] at hlength
      simp at hlength
    refine (Tells.anyOf hmark).congr ⟨?_, ?_⟩
    · rintro ⟨mark, hmark, hfile⟩
      exact ⟨_, hfile, mark, hmark, rfl⟩
    · rintro ⟨_, hfile, mark, hmark, rfl⟩
      exact ⟨mark, hmark, hfile⟩
  cases e with
  | csharp =>
    have hsrc : ∀ c ∈ ["src"], IsProper c := by decide
    refine ((tells_isDirectory h hsrc).and fun hd => tells_holdsProjectFile (h.below hd)).congr ⟨?_, ?_⟩
    · rintro ⟨-, between, name, hlength, hfile, hn⟩
      rw [List.append_assoc] at hn
      exact ⟨_, hn, between, name, hlength, hfile, rfl⟩
    · rintro ⟨_, hn, between, name, hlength, hfile, rfl⟩
      have hbelow : s.files.get? (d ++ ["src"] ++ (between ++ [name])) ≠ none := by
        rwa [List.append_assoc]
      exact ⟨h.sound.files.ancestor hbelow (by simp), between, name, hlength, hfile, hbelow⟩
  | _ => exact hrequired

open Classical in
/-- The ecosystem of a project is the first one of which it bears a mark. -/
theorem perform_find? (h : s.Listed p d) :
    (find? p).perform s = (.ok (all.find? fun e => decide (e.IsBorne (s.files.content d))), s) := by
  unfold find?
  generalize all = es
  induction es with
  | nil => rfl
  | cons e es ih =>
    unfold firstOf
    rw [perform_bind_ok (tells_recognizes h e).perform, List.find?_cons]
    cases decide (e.IsBorne (s.files.content d)) with
    | true => rfl
    | false => exact ih

/-- What is found is borne, and no ecosystem that comes before it is. -/
theorem find?_eq_some_iff (h : s.Listed p d) : ((find? p).perform s).1 = .ok (some e) ↔ e.IsBorne (s.files.content d) ∧
    ∃ before after, all = before ++ e :: after ∧ ∀ other ∈ before, ¬ other.IsBorne (s.files.content d) := by
  classical
  rw [perform_find? h, Except.ok.injEq, List.find?_eq_some_iff_append]
  simp only [decide_eq_true_eq, Bool.not_eq_true', decide_eq_false_iff_not]

theorem looks_get (project : Path) : Looks (get project) := by
  refine (looks_find? project).bind fun found => ?_
  cases found with
  | none => exact Looks.throw _
  | some e => exact Looks.pure _

open Classical in
/-- A directory is the root of a project if it bears a mark of some ecosystem. -/
theorem tells_isProjectRoot (h : s.Listed p d) : Tells s (isProjectRoot p) (∃ e : Ecosystem, e.IsBorne (s.files.content d)) := by
  have hnil : ∀ c ∈ ([] : List String), IsProper c := fun c hc => absurd hc List.not_mem_nil
  have htop := tells_isDirectory h hnil
  rw [Path.append_nil, List.append_nil] at htop
  refine (htop.and fun _ => ⟨_, perform_bind_ok (perform_find? h) _, Iff.rfl⟩).congr ?_
  rw [and_iff_right h.directory, List.find?_isSome]
  constructor
  · rintro ⟨e, -, he⟩
    exact ⟨e, of_decide_eq_true he⟩
  · rintro ⟨e, he⟩
    exact ⟨e, by cases e <;> decide, decide_eq_true he⟩

end Ecosystem

end Handout
