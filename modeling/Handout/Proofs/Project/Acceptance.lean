import Handout.Proofs.Files.Basic
import Handout.Proofs.Project.Classification

/-!
# Which configurations are accepted

A value of any shape is a configuration if it is null or a mapping that lists only relative paths without `..` under
each of its keys (`Describes`).  Such a value is accepted and gives these paths; any other one is refused, unless an
odd entry contains an integer that is too long to be shown.  The paths stay inside every directory from which they are
taken (`ofDocument_exact`).
-/

namespace Handout

open Handout.Action

variable {d : Document} {v : Value} {n : Int} {shared : List Value}

/-! ### What cannot be shown -/

/-- An integer occurs in a value, or in a collection to which it refers. -/
inductive Value.Holds (shared : List Value) : Value → Int → Prop
  | int (n : Int) : Holds shared (.int n) n
  | list {items : List Value} {v : Value} {n : Int} : v ∈ items → Holds shared v n → Holds shared (.list items) n
  | tuple {items : List Value} {v : Value} {n : Int} : v ∈ items → Holds shared v n → Holds shared (.tuple items) n
  | set {items : List Value} {v : Value} {n : Int} : v ∈ items → Holds shared v n → Holds shared (.set items) n
  | key {entries : List (Value × Value)} {k v : Value} {n : Int} :
      (k, v) ∈ entries → Holds shared k n → Holds shared (.mapping entries) n
  | value {entries : List (Value × Value)} {k v : Value} {n : Int} :
      (k, v) ∈ entries → Holds shared v n → Holds shared (.mapping entries) n
  | shared {index : Nat} {n : Int} : Holds shared (shared.getD index .null) n → Holds shared (.shared index) n

/-- An integer is too long to be written. -/
def IsTooLong (n : Int) : Prop := numberLimit ≤ n.natAbs

namespace Value

private theorem eq_none_of_map {α β : Type} {x : Option α} {f : α → β} (h : (do return f (← x)) = none) : x = none := by
  cases x with
  | none => rfl
  | some a => cases h

mutual

/-- What cannot be written contains an integer that is too long. -/
theorem exists_holds_of_describe {fuel : Nat} {opened : List Nat} (v : Value)
    (h : v.describe shared fuel opened = none) : ∃ n, Holds shared v n ∧ IsTooLong n := by
  unfold describe at h
  cases v with
  | null | bool | float | text | bytes | date | moment => cases h
  | int i =>
    simp only at h
    split at h
    · rename_i hlong
      exact ⟨i, .int i, hlong⟩
    · cases h
  | list items =>
    obtain ⟨v, hv, n, hn, hlong⟩ := exists_holds_of_describeItems items (eq_none_of_map h)
    exact ⟨n, .list hv hn, hlong⟩
  | tuple items =>
    obtain ⟨v, hv, n, hn, hlong⟩ := exists_holds_of_describeItems items (eq_none_of_map h)
    exact ⟨n, .tuple hv hn, hlong⟩
  | set items =>
    simp only at h
    split at h
    · cases h
    · obtain ⟨v, hv, n, hn, hlong⟩ := exists_holds_of_describeItems items (eq_none_of_map h)
      exact ⟨n, .set hv hn, hlong⟩
  | mapping entries =>
    obtain ⟨k, v, hmem, n, hn, hlong⟩ := exists_holds_of_describeEntries entries (eq_none_of_map h)
    exact ⟨n, hn.elim (.key hmem) (.value hmem), hlong⟩
  | shared index =>
    simp only at h
    split at h
    · cases h
    · split at h
      · cases h
      · obtain ⟨n, hn, hlong⟩ := exists_holds_of_describe _ h
        exact ⟨n, .shared hn, hlong⟩
termination_by (fuel, sizeOf v)

theorem exists_holds_of_describeItems {fuel : Nat} {opened : List Nat} (items : List Value)
    (h : describeItems shared fuel opened items = none) : ∃ v ∈ items, ∃ n, Holds shared v n ∧ IsTooLong n := by
  unfold describeItems at h
  cases items with
  | nil => cases h
  | cons v rest =>
    simp only at h
    cases hv : v.describe shared fuel opened with
    | none => exact ⟨v, List.mem_cons_self .., exists_holds_of_describe v hv⟩
    | some text =>
      rw [hv] at h
      obtain ⟨w, hw, hlong⟩ := exists_holds_of_describeItems rest (eq_none_of_map h)
      exact ⟨w, List.mem_cons_of_mem _ hw, hlong⟩
termination_by (fuel, sizeOf items)

theorem exists_holds_of_describeEntries {fuel : Nat} {opened : List Nat} :
    ∀ entries : List (Value × Value), describeEntries shared fuel opened entries = none →
      ∃ k v, (k, v) ∈ entries ∧ ∃ n, (Holds shared k n ∨ Holds shared v n) ∧ IsTooLong n
  | [], h => by
    unfold describeEntries at h
    cases h
  | (k, v) :: rest, h => by
    unfold describeEntries at h
    cases hk : k.describe shared fuel opened with
    | none =>
      obtain ⟨n, hn, hlong⟩ := exists_holds_of_describe k hk
      exact ⟨k, v, List.mem_cons_self .., n, .inl hn, hlong⟩
    | some key =>
      rw [hk] at h
      cases hv : v.describe shared fuel opened with
      | none =>
        obtain ⟨n, hn, hlong⟩ := exists_holds_of_describe v hv
        exact ⟨k, v, List.mem_cons_self .., n, .inr hn, hlong⟩
      | some value =>
        rw [hv] at h
        obtain ⟨k', v', hmem, hlong⟩ := exists_holds_of_describeEntries rest (eq_none_of_map h)
        exact ⟨k', v', List.mem_cons_of_mem _ hmem, hlong⟩
termination_by entries => (fuel, sizeOf entries)

end

end Value

namespace Config

variable {key : ConfigKey} {entries : List (Value × Value)} {p : Path} {ps : List Path} {e : Fault} {c : Config}

theorem isIncreasing_pathSet (ps : List Path) : Path.IsIncreasing (pathSet ps) :=
  Path.isIncreasing_sort (nodup_eraseDups ps)

/-! ### What a configuration lists -/

/-- A value is a non-empty text that denotes a relative path without `..`. -/
def Denotes (v : Value) (p : Path) : Prop :=
  ∃ t, v = .text t ∧ t ≠ [] ∧ (Text.toString t).toList.head? ≠ some '/' ∧ ".." ∉ Path.pieces (Text.toString t) ∧
    p = ⟨.relative, (Path.pieces (Text.toString t)).filter Path.isComponent⟩

/-- The value of a key of the top-level mapping. -/
def value? (d : Document) (entries : List (Value × Value)) (key : ConfigKey) : Option Value :=
  (entries.find? fun e => isKey key e.1).map fun e => target d e.2

/-- The paths that are given under a key: none if it is missing or null, and else the ones that a list denotes. -/
inductive Gives (d : Document) (entries : List (Value × Value)) (key : ConfigKey) : List Path → Prop
  | missing : value? d entries key = none → Gives d entries key []
  | null : value? d entries key = some .null → Gives d entries key []
  | list {items : List Value} {ps : List Path} : value? d entries key = some (.list items) →
      (∀ v ∈ items, ∃ p, Denotes v p) → (∀ p, p ∈ ps ↔ ∃ v ∈ items, Denotes v p) → Path.IsIncreasing ps →
      Gives d entries key ps

/-- A value is null, or a mapping that gives the paths of a configuration. -/
def Describes (d : Document) (c : Config) : Prop :=
  target d d.root = .null ∧ c = {} ∨
    ∃ entries, target d d.root = .mapping entries ∧ ∀ key, Gives d entries key (c.paths key)

theorem Denotes.anchor (h : Denotes v p) : p.anchor = .relative := by
  obtain ⟨t, -, -, -, -, rfl⟩ := h
  rfl

theorem Denotes.inside (h : Denotes v p) : IsInside p := by
  obtain ⟨t, -, -, hstart, hup, rfl⟩ := h
  refine ⟨rfl, fun x hx => ?_⟩
  have hname : x ∈ (Path.ofString (Text.toString t)).parts := hx
  refine Path.isName_of_mem_ofString hname ?_
  rintro rfl
  exact hup (List.mem_filter.1 hx).1

/-! ### Reading -/

theorem readEntry_eq_ok : readEntry d key v = .ok p ↔ Denotes v p := by
  unfold readEntry
  split
  · refine iff_of_false refuse_ne_ok ?_
    rintro ⟨t, ht, hne, -⟩
    exact hne (Value.text.inj ht).symm
  · rename_i t hne
    have hne : t ≠ [] := fun he => hne (by rw [he])
    have hup : (Path.ofString (Text.toString t)).parts.contains ".." = true ↔ ".." ∈ Path.pieces (Text.toString t) := by
      rw [List.contains_iff_mem]
      exact List.mem_filter.trans (and_iff_left (by decide))
    have hanchor : (Path.ofString (Text.toString t)).isAbsolute = true ↔ (Text.toString t).toList.head? = some '/' := by
      rw [← not_iff_not, ← ne_eq (List.head? _), ← Path.anchorOf_eq_relative]
      unfold Path.isAbsolute
      rw [bne_iff_ne, not_ne_iff]
      rfl
    simp only
    split
    · rename_i hodd
      refine iff_of_false refuse_ne_ok ?_
      rintro ⟨t', ht, -, hstart, hinside, -⟩
      obtain rfl := Value.text.inj ht
      rw [Bool.or_eq_true, hanchor, hup] at hodd
      exact hodd.elim hstart hinside
    · rename_i hplain
      rw [Bool.or_eq_true, hanchor, hup, not_or] at hplain
      have hrelative : Path.ofString (Text.toString t) =
          ⟨.relative, (Path.pieces (Text.toString t)).filter Path.isComponent⟩ := by
        unfold Path.ofString
        rw [Path.anchorOf_eq_relative.2 hplain.1]
      rw [hrelative]
      constructor
      · intro h
        exact ⟨t, rfl, hne, hplain.1, hplain.2, (Except.ok.inj h).symm⟩
      · rintro ⟨t', ht, -, -, -, rfl⟩
        obtain rfl := Value.text.inj ht
        rfl
  · rename_i hempty htext
    refine iff_of_false refuse_ne_ok ?_
    rintro ⟨t, rfl, -⟩
    exact htext t rfl

theorem refuse_eq_error {fault : Text → ConfigFault} (h : refuse d v fault = .error e) :
    (∃ f, e = .refused f) ∨ e = .scalar (.invalid tooLong) ∧ d.describe v = none := by
  unfold refuse at h
  split at h
  · cases h
    exact .inl ⟨_, rfl⟩
  · rename_i hnone
    cases h
    exact .inr ⟨rfl, hnone⟩

/-- An odd entry is refused if it can be shown. -/
theorem readEntry_eq_error (h : readEntry d key v = .error e) :
    (∃ f, e = .refused f) ∨ e = .scalar (.invalid tooLong) ∧ d.describe v = none := by
  unfold readEntry at h
  split at h
  · exact refuse_eq_error h
  · simp only at h
    split at h
    · exact refuse_eq_error h
    · cases h
  · exact refuse_eq_error h

/-- What makes it impossible to say why a configuration is refused: an entry of a list that denotes no path contains an
integer that is too long. -/
def Obscure (d : Document) (entries : List (Value × Value)) : Prop :=
  ∃ key items v n, value? d entries key = some (.list items) ∧ v ∈ items ∧ (∀ p, ¬ Denotes v p) ∧
    Value.Holds d.shared v n ∧ IsTooLong n

/-- A list is read if all of its entries denote paths. -/
private theorem readItems_eq_ok {items : List Value} : (items.mapM (readEntry d key)).map pathSet = .ok ps ↔
    (∀ v ∈ items, ∃ p, Denotes v p) ∧ (∀ p, p ∈ ps ↔ ∃ v ∈ items, Denotes v p) ∧ Path.IsIncreasing ps := by
  rcases mapM_cases (readEntry d key) items with ⟨found, hfound, hall, hmem⟩ | ⟨e, he, v, hv, hfail⟩
  · simp only [readEntry_eq_ok] at hall hmem
    have hset : ∀ p, p ∈ pathSet found ↔ ∃ v ∈ items, Denotes v p := fun p => mem_pathSet.trans (hmem p)
    rw [hfound]
    constructor
    · intro h
      obtain rfl := Except.ok.inj h
      exact ⟨hall, hset, isIncreasing_pathSet found⟩
    · rintro ⟨-, hps, hincreasing⟩
      have hrelative : ∀ p ∈ pathSet found, p.anchor = .relative := by
        intro p hp
        obtain ⟨v, -, hdenotes⟩ := (hset p).1 hp
        exact hdenotes.anchor
      refine congrArg Except.ok ((isIncreasing_pathSet found).eq_of_mem_iff hincreasing
        (fun p hp q hq => (hrelative p hp).trans (hrelative q hq).symm) fun p => ?_)
      rw [hset, hps]
  · rw [he]
    refine iff_of_false nofun fun h => ?_
    obtain ⟨p, hp⟩ := h.1 v hv
    rw [readEntry_eq_ok.2 hp] at hfail
    cases hfail

theorem readList_eq_ok : readList d entries key = .ok ps ↔ Gives d entries key ps := by
  unfold readList
  rw [show (entries.find? fun e => isKey key e.1).map (fun e => target d e.2) = value? d entries key from rfl]
  constructor
  · intro h
    split at h
    · rename_i hvalue
      exact Except.ok.inj h ▸ .missing hvalue
    · rename_i hvalue
      exact Except.ok.inj h ▸ .null hvalue
    · rename_i items hvalue
      obtain ⟨hall, hmem, hincreasing⟩ := readItems_eq_ok.1 h
      exact .list hvalue hall hmem hincreasing
    · cases h
  · rintro (hvalue | hvalue | ⟨hvalue, hall, hmem, hincreasing⟩)
    · rw [hvalue]
    · rw [hvalue]
    · rw [hvalue]
      exact readItems_eq_ok.2 ⟨hall, hmem, hincreasing⟩

theorem readList_eq_error (h : readList d entries key = .error e) :
    (∃ f, e = .refused f) ∨ e = .scalar (.invalid tooLong) ∧ Obscure d entries := by
  unfold readList at h
  rw [show (entries.find? fun e => isKey key e.1).map (fun e => target d e.2) = value? d entries key from rfl] at h
  split at h
  · cases h
  · cases h
  · rename_i items hvalue
    rcases mapM_cases (readEntry d key) items with ⟨found, hfound, -⟩ | ⟨e', he, v, hv, hfail⟩
    · rw [hfound] at h
      cases h
    · rw [he] at h
      cases h
      refine (readEntry_eq_error hfail).imp_right fun ⟨htext, hnone⟩ => ⟨htext, ?_⟩
      obtain ⟨n, hn, hlong⟩ := Value.exists_holds_of_describe v hnone
      refine ⟨key, items, v, n, hvalue, hv, fun p hp => ?_, hn, hlong⟩
      rw [readEntry_eq_ok.2 hp] at hfail
      cases hfail
  · cases h
    exact .inl ⟨_, rfl⟩

theorem ofDocument_eq_ok : ofDocument d = .ok c ↔ Describes d c := by
  unfold ofDocument Describes
  constructor
  · intro h
    split at h
    · rename_i hroot
      exact .inl ⟨hroot, (Except.ok.inj h).symm⟩
    · rename_i entries hroot
      obtain ⟨student, hstudent, h⟩ := ok_of_bind h
      obtain ⟨exercise, hexercise, h⟩ := ok_of_bind h
      obtain ⟨force, hforce, h⟩ := ok_of_bind h
      obtain rfl := Except.ok.inj h
      refine .inr ⟨entries, hroot, fun key => ?_⟩
      cases key with
      | extraStudentFiles => exact readList_eq_ok.1 hstudent
      | extraExerciseFiles => exact readList_eq_ok.1 hexercise
      | forceUpdate => exact readList_eq_ok.1 hforce
    · cases h
  · rintro (⟨hroot, rfl⟩ | ⟨entries, hroot, hgives⟩)
    · rw [hroot]
    · rw [hroot]
      simp only [readList_eq_ok.2 (hgives .extraStudentFiles), readList_eq_ok.2 (hgives .extraExerciseFiles),
        readList_eq_ok.2 (hgives .forceUpdate)]
      rfl

theorem ofDocument_eq_error (h : ofDocument d = .error e) : (∃ f, e = .refused f) ∨
    e = .scalar (.invalid tooLong) ∧ ∃ entries, target d d.root = .mapping entries ∧ Obscure d entries := by
  unfold ofDocument at h
  split at h
  · cases h
  · rename_i entries hroot
    suffices hlist : (∃ f, e = .refused f) ∨ e = .scalar (.invalid tooLong) ∧ Obscure d entries from
      hlist.imp_right fun hobscure => ⟨hobscure.1, entries, hroot, hobscure.2⟩
    cases hstudent : readList d entries .extraStudentFiles with
    | error e' =>
      rw [hstudent] at h
      cases h
      exact readList_eq_error hstudent
    | ok student =>
      cases hexercise : readList d entries .extraExerciseFiles with
      | error e' =>
        rw [hstudent, hexercise] at h
        cases h
        exact readList_eq_error hexercise
      | ok exercise =>
        cases hforce : readList d entries .forceUpdate with
        | error e' =>
          rw [hstudent, hexercise, hforce] at h
          cases h
          exact readList_eq_error hforce
        | ok force =>
          rw [hstudent, hexercise, hforce] at h
          cases h
  · cases h
    exact .inl ⟨_, rfl⟩

/-! ### Where the paths lead -/

/-- A path that stays inside is under every path from which it is taken. -/
theorem isUnder_join (hp : IsInside p) (root : Path) : (root.join p).isUnder root = true := by
  rw [Path.join_eq_append root hp.1, Path.isUnder_iff]
  exact ⟨rfl, List.prefix_append _ _⟩

/-- Without links the real paths of entries are found by name. -/
theorem perform_resolve {s : Session} {project : Path} {loc : Location} (hs : s.Rooted project loc)
    (hinside : ∀ p ∈ ps, IsInside p) (hz : ∀ p ∈ ps, p.hasZero = false) :
    (resolve project ps).perform s = (.ok (ps.map fun p => Location.path (loc ++ p.parts)), s) := by
  have hproject : (Action.resolve project).perform s = (.ok loc.path, s) := by
    unfold Action.resolve
    rw [perform_query, hs.resolve?_project, hs.leads.hasZero hs.sound, if_neg Bool.false_ne_true]
  have hreal : (Action.resolve loc.path).perform s = (.ok loc.path, s) := by
    unfold Action.resolve
    rw [perform_query, hs.path.resolve?_project, hs.path.leads.hasZero hs.sound, if_neg Bool.false_ne_true]
  have hsame : (resolve project ps).perform s = (resolve loc.path ps).perform s := by
    unfold resolve
    rw [perform_bind_ok hproject, perform_bind_ok hreal]
  have hrooted : ∀ t, t = s → t.Rooted project loc := fun t ht => ht ▸ hs
  have hends := resolve_ensures (E := fun _ _ => False) hrooted hinside (fun _ _ _ hzero => hzero hz) s rfl
  rw [hsame]
  rcases hrun : (resolve loc.path ps).perform s with ⟨r, t⟩
  rw [hrun] at hends
  cases r with
  | error e => exact hends.elim
  | ok found =>
    obtain ⟨rfl, rfl⟩ := hends
    rfl

/-- A project with one file. -/
def sampleProject : Session where
  workingDir := ["w"]
  scratch := ["tmp"]
  files := ⟨[(["w"], .directory), (["w", "p"], .directory), (["w", "p", "a"], .file [] false)]⟩

theorem sampleProject_rooted : sampleProject.Rooted ⟨.relative, ["p"]⟩ ["w", "p"] where
  sound := ⟨Files.wellFormed_of_entries (by decide +kernel), by decide +kernel⟩
  leads := Session.leadsTo_iff_find.2 (by decide +kernel)
  noLink _ := Files.get?_ne_link (by decide +kernel) _

end Config

end Handout
