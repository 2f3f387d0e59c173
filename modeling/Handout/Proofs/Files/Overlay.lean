import Handout.Proofs.Files.Basic

/-!
# What a copy leaves

A source is known by what it offers under each list of names, and a place by what is stored there under each list of
names (`Files.content`).  `overlay` is what is stored after the source has been copied to the place: the source laid
over what was there before.  A copy may clash with what is there (`Clash`); then it fails.  Both follow the recursion
over a directory, one name after the other (`under_overlay`, `clash_directory`).
-/

namespace Handout

/-- What is offered for copying. -/
inductive Offer where
  | directory
  | file (data : Bytes) (executable : Bool)
  /-- Something that is there but cannot be copied. -/
  | refused
deriving DecidableEq, Repr

/-- What is offered under lists of names. -/
abbrev Offers := List String → Option Offer

/-- What is stored under lists of names. -/
abbrev Content := List String → Option Node

/-- What is stored at and below a location. -/
def Files.content (f : Files) (loc : Location) : Content := fun names => f.get? (loc ++ names)

/-- What lies behind a name. -/
def under {α : Type} (m : List String → α) (name : String) : List String → α := fun names => m (name :: names)

theorem Files.under_content (f : Files) (loc : Location) (name : String) :
    under (f.content loc) name = f.content (loc ++ [name]) := by
  funext names
  unfold under Files.content
  rw [List.append_assoc, List.singleton_append]

/-- What is stored after a source with the given name has been copied.  A file goes into a directory that is there. -/
def overlay (offers : Offers) (name : String) (old : Content) : Content
  | [] =>
    match offers [] with
    | some .directory => some .directory
    | some (.file data executable) =>
      if old [] = some .directory then some .directory else some (.file data executable)
    | _ => old []
  | c :: rest =>
    match offers [] with
    | some .directory => overlay (under offers c) c (under old c) rest
    | some (.file data executable) =>
      if old [] = some .directory ∧ c :: rest = [name] then some (.file data executable) else old (c :: rest)
    | _ => old (c :: rest)

/-- What keeps a source from being copied: there is nothing to copy, or a directory and a file are in each other's
place. -/
def ClashAt (offers : Offers) (name : String) (old : Content) : List String → Prop
  | [] =>
    match offers [] with
    | some .directory => old [] ≠ none ∧ old [] ≠ some .directory
    | some (.file _ _) => old [] = some .directory ∧ old [name] = some .directory
    | _ => True
  | c :: rest => offers [] = some .directory ∧ offers [c] ≠ none ∧ ClashAt (under offers c) c (under old c) rest

/-- A source cannot be copied as a whole. -/
def Clash (offers : Offers) (name : String) (old : Content) : Prop := ∃ names, ClashAt offers name old names

variable {offers : Offers} {name c : String} {old : Content} {data : Bytes} {executable : Bool}

/-! ### Directories -/

theorem overlay_directory (h : offers [] = some .directory) : overlay offers name old [] = some .directory := by
  rw [overlay, h]

theorem under_overlay (h : offers [] = some .directory) :
    under (overlay offers name old) c = overlay (under offers c) c (under old c) := by
  funext rest
  show overlay offers name old (c :: rest) = _
  rw [overlay, h]

/-- What is not offered stays as it is. -/
theorem overlay_none (h : offers [] = none) : overlay offers name old = old := by
  funext names
  cases names with
  | nil => rw [overlay, h]
  | cons c rest => rw [overlay, h]

theorem clash_directory (h : offers [] = some .directory) :
    Clash offers name old ↔
      (old [] ≠ none ∧ old [] ≠ some .directory) ∨ ∃ c, offers [c] ≠ none ∧ Clash (under offers c) c (under old c) := by
  constructor
  · rintro ⟨names, hnames⟩
    cases names with
    | nil =>
      rw [ClashAt, h] at hnames
      exact .inl hnames
    | cons c rest => exact .inr ⟨c, hnames.2.1, rest, hnames.2.2⟩
  · rintro (hold | ⟨c, hc, rest, hrest⟩)
    · refine ⟨[], ?_⟩
      rw [ClashAt, h]
      exact hold
    · exact ⟨c :: rest, h, hc, hrest⟩

/-! ### Files -/

theorem overlay_file_nil (h : offers [] = some (.file data executable)) (hold : old [] ≠ some .directory) :
    overlay offers name old [] = some (.file data executable) := by
  simp only [overlay, h, if_neg hold]

theorem overlay_file_cons (h : offers [] = some (.file data executable)) (hold : old [] ≠ some .directory)
    (rest : List String) : overlay offers name old (c :: rest) = old (c :: rest) := by
  simp only [overlay, h, hold, false_and, if_false]

/-- A file that is copied onto a directory goes into it. -/
theorem overlay_file_inside (h : offers [] = some (.file data executable)) (hold : old [] = some .directory)
    (names : List String) :
    overlay offers name old names = if names = [name] then some (.file data executable) else old names := by
  cases names with
  | nil => simp [overlay, h, hold]
  | cons c rest => simp [overlay, h, hold]

theorem clash_file (h : offers [] = some (.file data executable)) :
    Clash offers name old ↔ old [] = some .directory ∧ old [name] = some .directory := by
  constructor
  · rintro ⟨names, hnames⟩
    cases names with
    | nil =>
      rw [ClashAt, h] at hnames
      exact hnames
    | cons c rest =>
      rw [ClashAt, h] at hnames
      cases hnames.1
  · intro hold
    refine ⟨[], ?_⟩
    rw [ClashAt, h]
    exact hold

/-- What is neither a directory nor a file cannot be copied. -/
theorem clash_of_neither (h : offers [] = none ∨ offers [] = some .refused) : Clash offers name old := by
  refine ⟨[], ?_⟩
  rcases h with h | h <;> rw [ClashAt, h] <;> trivial

/-! ### Copies to a place below -/

/-- What is stored after a source has been copied to the place of some names, of which the directories are made. -/
def deposit (offers : Offers) (name : String) (place : List String) (old : Content) : Content := fun names =>
  if place <+: names then overlay offers name (fun rest => old (place ++ rest)) (names.drop place.length)
  else if names <+: place then some .directory
  else old names

/-- Something is in the way of directories. -/
def Blocked (old : Content) (names : List String) : Prop :=
  ∃ first, first <+: names ∧ old first ≠ none ∧ old first ≠ some .directory

theorem Blocked.mono {old : Content} {first names : List String} (h : Blocked old first) (hp : first <+: names) :
    Blocked old names := by
  obtain ⟨q, hq, hold⟩ := h
  exact ⟨q, hq.trans hp, hold⟩

/-- A source cannot be copied to the place of some names. -/
def Obstructed (offers : Offers) (name : String) (place : List String) (old : Content) : Prop :=
  Blocked old place.dropLast ∨ Clash offers name fun rest => old (place ++ rest)

theorem deposit_append (offers : Offers) (name : String) (place names : List String) (old : Content) :
    deposit offers name place old (place ++ names) = overlay offers name (fun rest => old (place ++ rest)) names := by
  unfold deposit
  rw [if_pos (List.prefix_append _ _), List.drop_left]

theorem deposit_of_not {place names : List String} (h : ¬ place <+: names) (h' : ¬ names <+: place) :
    deposit offers name place old names = old names := by
  unfold deposit
  rw [if_neg h, if_neg h']

end Handout
