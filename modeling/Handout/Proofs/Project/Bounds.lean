import Handout.Project.Policy
import Handout.Proofs.Path

/-!
# What bounds the files of a student

A configured entry bounds the paths under it, and an ecosystem bounds the paths whose first components are those of
its source folder.  Both are one order: a path is under another one if they have the same anchor and its components
begin with those of the other one (`Path.isUnder_order`).  So an entry and a source folder of the same name bound the
same paths of a project, wherever the project is, and each ecosystem bounds the paths under its default paths, apart
from what it leaves out there.
-/

namespace Handout

variable {p q r base : Path} {entries : List Path} {e : Ecosystem}

namespace Path

/-! ### An order -/

theorem isUnder_refl (p : Path) : p.isUnder p = true := isUnder_iff.2 ⟨rfl, List.prefix_refl _⟩

theorem isUnder_antisymm (hpq : p.isUnder q = true) (hqp : q.isUnder p = true) : p = q := by
  obtain ⟨hanchor, hqp'⟩ := isUnder_iff.1 hpq
  obtain ⟨-, hpq'⟩ := isUnder_iff.1 hqp
  obtain ⟨anchor, parts⟩ := p
  obtain ⟨anchor', parts'⟩ := q
  obtain rfl : anchor = anchor' := hanchor
  obtain rfl : parts = parts' := hpq'.eq_of_length (Nat.le_antisymm hpq'.length_le hqp'.length_le)
  rfl

theorem isUnder_trans (hpq : p.isUnder q = true) (hqr : q.isUnder r = true) : p.isUnder r = true := by
  obtain ⟨hpq, hq⟩ := isUnder_iff.1 hpq
  obtain ⟨hqr, hr⟩ := isUnder_iff.1 hqr
  exact isUnder_iff.2 ⟨hpq.trans hqr, hr.trans hq⟩

/-! ### Relative paths -/

private theorem anchor_of_relative (hp : p.isAbsolute = false) : p.anchor = .relative := by
  simpa [isAbsolute] using hp

private theorem components_of_relative (hp : p.isAbsolute = false) : p.components = p.parts := by
  rw [components, hp, if_neg Bool.false_ne_true]

/-- The test by parents and the test by first components agree on relative paths. -/
theorem isUnder_eq_startsWith (hp : p.isAbsolute = false) (hq : q.isAbsolute = false) :
    p.isUnder q = p.startsWith q := by
  rw [Bool.eq_iff_iff, isUnder_iff, startsWith_iff, components_of_relative hp, components_of_relative hq]
  exact and_iff_right (by rw [anchor_of_relative hp, anchor_of_relative hq])

/-- Relative paths that are taken from the same base keep their order. -/
theorem join_isUnder_join (hp : p.isAbsolute = false) (hq : q.isAbsolute = false) :
    (base.join p).isUnder (base.join q) = p.startsWith q := by
  rw [Bool.eq_iff_iff, isUnder_iff, startsWith_iff, components_of_relative hp, components_of_relative hq]
  unfold join
  rw [hp, hq, if_neg Bool.false_ne_true, if_neg Bool.false_ne_true]
  exact (and_iff_right rfl).trans (List.prefix_append_right_inj base.parts)

end Path

/-! ### Entries and source folders -/

theorem Policy.isUnderAny_join (hp : p.isAbsolute = false) (hentries : ∀ q ∈ entries, q.isAbsolute = false) :
    isUnderAny (base.join p) (entries.map base.join) = entries.any p.startsWith := by
  unfold isUnderAny
  rw [List.any_map, Bool.eq_iff_iff, List.any_eq_true, List.any_eq_true]
  exact exists_congr fun q => and_congr_right fun hq => by
    rw [Function.comp_apply, Path.join_isUnder_join hp (hentries q hq)]

namespace Ecosystem

/-- What an ecosystem leaves to the exercise wherever it lies: what its build tool makes. -/
def leavesOut (e : Ecosystem) (p : Path) : Bool :=
  match e with
  | maven | ant | make => false
  | csharp => ["bin", "obj"].any fun d => p.components.contains d
  | python => p.suffix == ".pyc" || p.components.contains "__pycache__"

theorem isStudentSource_eq (e : Ecosystem) (p : Path) :
    e.isStudentSource p = (e.defaultStudentPaths.any p.startsWith && !e.leavesOut p) := by
  cases e with
  | maven | ant | make => simp [isStudentSource, defaultStudentPaths, leavesOut]
  | csharp => simp [isStudentSource, defaultStudentPaths, leavesOut]
  | python => simp [isStudentSource, defaultStudentPaths, leavesOut, Bool.and_assoc, bne]

theorem isAbsolute_of_mem_defaultStudentPaths : ∀ q ∈ e.defaultStudentPaths, q.isAbsolute = false := by
  cases e <;> decide +kernel

end Ecosystem

/-- Being under a path is a partial order, that of components with the same anchor; for relative paths it is the test
by first components.  So a project, whatever its path is, has the same paths under its configured entries as begin
with these entries, and an ecosystem makes exactly the paths under its default paths the student's that it does not
leave out. -/
theorem Path.isUnder_order :
    (∀ p q : Path, p.isUnder q = true ↔ p.anchor = q.anchor ∧ q.parts <+: p.parts) ∧
    (∀ p : Path, p.isUnder p = true) ∧
    (∀ p q : Path, p.isUnder q = true → q.isUnder p = true → p = q) ∧
    (∀ p q r : Path, p.isUnder q = true → q.isUnder r = true → p.isUnder r = true) ∧
    (∀ p q : Path, p.isAbsolute = false → q.isAbsolute = false → p.isUnder q = p.startsWith q) ∧
    (∀ (base p : Path) (entries : List Path), p.isAbsolute = false → (∀ q ∈ entries, q.isAbsolute = false) →
      Policy.isUnderAny (base.join p) (entries.map base.join) = entries.any p.startsWith) ∧
    ∀ (base p : Path) (e : Ecosystem), p.isAbsolute = false →
      e.isStudentSource p =
        (Policy.isUnderAny (base.join p) (e.defaultStudentPaths.map base.join) && !e.leavesOut p) := by
  refine ⟨fun p q => isUnder_iff, isUnder_refl, fun p q => isUnder_antisymm, fun p q r => isUnder_trans,
    fun p q => isUnder_eq_startsWith, fun base p entries => Policy.isUnderAny_join, fun base p e hp => ?_⟩
  rw [e.isStudentSource_eq, Policy.isUnderAny_join hp Ecosystem.isAbsolute_of_mem_defaultStudentPaths]

/-- Doubled slashes and dots do not matter, the empty path is above all relative paths, parent components stay, and a
folder whose name only begins like another one is not under it; the root written with two slashes is not the root. -/
theorem Path.sampleSpellings_bounded :
    (ofString "src//main/./A.java").isUnder (ofString "./src/main/") = true ∧
    (ofString "src/main/A.java").isUnder (ofString "") = true ∧
    (ofString "src/../src/main").isUnder (ofString "src/main") = false ∧
    (ofString "src/mainly/A.java").isUnder (ofString "src/main") = false ∧
    (ofString "//src").isUnder (ofString "/src") = false ∧
    Policy.isUnderAny ((ofString "/home/x").join (ofString "src/mainly"))
        [(ofString "/home/x").join (ofString "src/main")] =
      Ecosystem.maven.isStudentSource (ofString "src/mainly") := by
  obtain ⟨hunder, -, -, -, hstarts, hentries, hdefaults⟩ := isUnder_order
  have hfalse : ∀ {b : Bool} {P : Prop}, (b = true ↔ P) → ¬ P → b = false := fun hiff hnot =>
    Bool.eq_false_iff.2 fun hb => hnot (hiff.1 hb)
  refine ⟨(hunder _ _).2 (by decide +kernel), ?_, ?_, hfalse (hunder _ _) (by decide +kernel),
    hfalse (hunder _ _) (by decide +kernel), ?_⟩
  · rw [hstarts _ _ (by decide +kernel) (by decide +kernel)]
    decide +kernel
  · rw [hstarts _ _ (by decide +kernel) (by decide +kernel)]
    decide +kernel
  · rw [hdefaults (ofString "/home/x") _ _ (by decide +kernel)]
    decide +kernel

end Handout
