import Handout.Proofs.Files.Source

/-!
# Making the parents of a path

However a path is written, also with `..` behind names that lead nowhere yet, making its directory adds nothing but
missing directories for which initial parts of the path stand (`Paved`, `makeDirectories_paves`).  Links stay as they
are; so the path stands for the same place before and after (`Paved.resolve?_eq`).
-/

namespace Handout

open Handout.Action Session

variable {s t : Session} {p : Path} {x d : Location} {n : Nat}

/-- A directory that is new and for which an initial part of a path stands.  It is above the place for which the path
stands, unless the path is written with `..`. -/
structure IsNewParent (s t : Session) (p : Path) (x : Location) : Prop where
  missing : s.files.get? x = none
  made : t.files.get? x = some .directory
  part : ∃ n ≤ p.parts.length, s.resolve? (pathPart p n) = .ok (Location.path x)
  above : ".." ∉ p.parts → ∀ d, s.resolve? p = .ok (Location.path d) → x <+: d

/-- The components of a path as it is read are names, apart from `..`. -/
def Path.IsRead (p : Path) : Prop := ∀ c ∈ p.parts, c ≠ ".." → IsName c

/-- Only missing directories on the way of a path were added. -/
structure Paved (s : Session) (p : Path) (t : Session) : Prop where
  sound : t.Sound
  workingDir : t.workingDir = s.workingDir
  links : t.files.links = s.files.links
  changed : ∀ x, t.files.get? x = s.files.get? x ∨ IsNewParent s t p x

theorem Paved.refl (hs : s.Sound) : Paved s p s := ⟨hs, rfl, rfl, fun _ => .inl rfl⟩

/-- The links are those from before. -/
theorem Paved.link_iff (h : Paved s p t) (x : Location) (target : String) :
    s.files.get? x = some (.link target) ↔ t.files.get? x = some (.link target) := by
  rcases h.changed x with he | hnew
  · rw [he]
  · rw [hnew.missing, hnew.made]
    exact ⟨nofun, nofun⟩

/-- What could be read before is read now. -/
theorem Paved.content? (h : Paved s p t) {w : WrittenPath} {data : Bytes} (hdata : s.content? w = .ok data) :
    t.content? w = .ok data := by
  obtain ⟨hz, loc, executable, hf⟩ := content?_eq_ok hdata
  have hkeep : ∀ x node, s.files.get? x = some node → t.files.get? x = some node := by
    intro x node hx
    rcases h.changed x with he | hnew
    · rw [he, hx]
    · cases hnew.missing.symm.trans hx
  have hfind : t.find true w.path = .ok ⟨loc, some (.file data executable)⟩ := by
    unfold Session.find at hf ⊢
    obtain ⟨dir, c, hloc, hnode⟩ := Files.walk_leaf hf nofun
    rw [h.workingDir]
    refine Files.walk_keep (fun x => hkeep x _) (fun x target => hkeep x _) ?_ hf nofun
    rw [show loc = dir ++ [c] from hloc, ← hnode]
    exact hkeep _ _ hnode.symm
  unfold Session.content?
  rw [hz, if_neg Bool.false_ne_true, hfind]

/-! ### The place for which a path stands -/

/-- With other links the same, a path that leads to a directory in one session stands for it in the other one. -/
private theorem canonical_of_leadsTo (hw : t.workingDir = s.workingDir) (hlinks : t.files.links = s.files.links)
    (hlink : ∀ x target, s.files.get? x = some (.link target) ↔ t.files.get? x = some (.link target))
    (hleads : t.LeadsTo p d) : s.files.canonical (s.files.links + 1) [] (s.start p) p.parts = (d, true) := by
  obtain ⟨n, -, hl⟩ := hleads
  have hstart : t.start p = s.start p := by rw [Session.start, Session.start, hw]
  rw [Files.canonical_congr hlink, ← hlinks, ← hstart]
  exact Files.canonical_of_leads hl

private theorem resolve?_of_canonical (hz : p.hasZero = false)
    (h : s.files.canonical (s.files.links + 1) [] (s.start p) p.parts = (d, true)) :
    s.resolve? p = .ok (Location.path d) := by
  unfold resolve?
  rw [hz, if_neg Bool.false_ne_true]
  simp only [show (if p.isAbsolute = true then [] else s.workingDir) = s.start p from rfl, h]
  rfl

private theorem eq_of_resolve? (hd : s.resolve? p = .ok (Location.path d))
    (h : s.files.canonical (s.files.links + 1) [] (s.start p) p.parts = (x, true)) : d = x := by
  by_cases hz : p.hasZero = true
  · unfold resolve? at hd
    rw [if_pos hz] at hd
    cases hd
  · cases hd.symm.trans (resolve?_of_canonical (by simpa using hz) h)
    rfl

/-- A path that leads to a directory now stood for this place before. -/
theorem Paved.resolve?_eq (h : Paved s p t) {q : Path} (hz : q.hasZero = false) (hleads : t.LeadsTo q d) :
    s.resolve? q = .ok (Location.path d) :=
  resolve?_of_canonical hz (canonical_of_leadsTo h.workingDir h.links h.link_iff hleads)

/-- So did the initial parts of the path. -/
theorem Paved.resolve?_part (h : Paved s p t) (hleads : t.LeadsTo p d) (n : Nat) :
    ∃ x, t.files.get? x = some .directory ∧ s.resolve? (pathPart p n) = .ok (Location.path x) := by
  obtain ⟨i, hi, hl⟩ := hleads
  rw [← List.take_append_drop n p.parts] at hl
  obtain ⟨x, j, l, hpart, -, rfl⟩ := Files.leads_append.1 hl
  have hx : t.LeadsTo (pathPart p n) x := ⟨j, by omega, hpart⟩
  exact ⟨x, hx.directory h.sound, h.resolve?_eq (hx.hasZero h.sound) hx⟩

/-- Behind a place with nothing below it, names lead on below it. -/
private theorem prefix_of_part (hplain : ∀ c ∈ p.parts, IsPlain c)
    (hclear : ∀ first text, first ≠ [] → s.files.get? (x ++ first) ≠ some (.link text))
    (h : s.files.canonical (s.files.links + 1) [] (s.start (pathPart p n)) (pathPart p n).parts = (x, true))
    (hd : s.resolve? p = .ok (Location.path d)) : x <+: d := by
  have hwhole : s.files.canonical (s.files.links + 1) [] (s.start (pathPart p n)) ((pathPart p n).parts ++ p.parts.drop n) =
      s.files.canonical (s.files.links + 1) [] x (p.parts.drop n) := Files.canonical_append h
  rw [Files.canonical_plain (fun c hc => hplain c (List.drop_subset _ _ hc)) fun first text hne _ => hclear first text hne,
    pathPart, List.take_append_drop] at hwhole
  rw [eq_of_resolve? hd hwhole]
  exact List.prefix_append _ _

/-- Where an initial part of the path leads to nothing yet, a directory may be added. -/
theorem Paved.put (h : Paved s p t) (hp : p.IsRead) (hn : n ≤ p.parts.length)
    (hz : (pathPart p n).hasZero = false) {loc : Location} (hf : t.find false (pathPart p n) = .ok ⟨loc, none⟩) :
    Paved s p { t with files := t.files.put loc .directory } ∧
      ({ t with files := t.files.put loc .directory } : Session).LeadsTo (pathPart p n) loc := by
  obtain ⟨dir, hleads, hpath, hplain, hshort, hplace | ⟨hfollow, -⟩⟩ := entry_of_find hf nofun
  swap
  · cases hfollow
  obtain ⟨hloc, hnone⟩ := Place.mk.inj hplace
  generalize hname : (pathPart p n).name = c at hpath hplain hshort hloc hnone
  have hmem : c ∈ (pathPart p n).parts := by
    rw [hpath]
    exact List.mem_append_right _ (List.mem_singleton.2 rfl)
  have hproper : IsProper c :=
    ⟨hp c (List.take_subset _ _ hmem) hplain.2, hshort, Path.not_mem_of_hasZero hz hmem⟩
  subst hloc
  have hne : dir ++ [c] ≠ [] := by simp
  have hself : (t.files.put (dir ++ [c]) .directory).get? (dir ++ [c]) = some .directory := Files.get?_put_self hne
  have hkeep : ∀ x node, t.files.get? x = some node → (t.files.put (dir ++ [c]) .directory).get? x = some node := by
    intro x node hx
    rw [Files.get?_put_of_ne hne, hx]
    rintro rfl
    rw [← hnone] at hx
    cases hx
  have hleads' : ({ t with files := t.files.put (dir ++ [c]) .directory } : Session).LeadsTo (pathPart p n) (dir ++ [c]) := by
    rw [leadsTo_iff_find, hpath, ← hself]
    refine find_child true (hleads.mono rfl (fun x => hkeep x _) fun x target => hkeep x _) hplain hshort fun target => ?_
    dsimp only
    rw [hself]
    exact nofun
  have hlinks : (t.files.put (dir ++ [c]) .directory).links = s.files.links := by
    refine (Files.links_put (fun old hold => ?_) rfl hne).trans h.links
    rw [← hnone] at hold
    cases hold
  have hlink : ∀ x text, s.files.get? x = some (.link text) ↔
      (t.files.put (dir ++ [c]) .directory).get? x = some (.link text) := by
    intro x text
    rw [h.link_iff, Files.get?_put hne]
    split
    · rename_i hx
      rw [hx, ← hnone]
      exact ⟨nofun, nofun⟩
    · exact Iff.rfl
  -- the links are those of the start, so the canonical form found now is the one found then
  have hpart := canonical_of_leadsTo (t := { t with files := t.files.put (dir ++ [c]) .directory }) h.workingDir hlinks
    hlink hleads'
  refine ⟨⟨h.sound.put (hleads.directory h.sound) hproper fun _ => rfl, h.workingDir, hlinks, fun x => ?_⟩, hleads'⟩
  by_cases hx : x = dir ++ [c]
  · subst hx
    rcases h.changed (dir ++ [c]) with he | hnew
    · refine .inr ⟨by rw [← he, ← hnone], hself, ⟨n, hn, resolve?_of_canonical hz hpart⟩, fun hup d hd => ?_⟩
      refine prefix_of_part (fun x hx => (hp x hx fun he => hup (he ▸ hx)).plain) (fun first text hne => ?_) hpart hd
      rw [Ne, h.link_iff, h.sound.files.get?_below (by rw [← hnone]; exact nofun) hne]
      exact nofun
    · rw [hnew.made] at hnone
      cases hnone
  · refine (h.changed x).imp (fun he => ?_) fun hnew => { hnew with made := hkeep x _ hnew.made }
    exact (Files.get?_put_of_ne hne hx).trans he

/-! ### Making directories -/

/-- The directory that was asked for is there. -/
def IsPaved (s : Session) (p : Path) (n : Nat) (t : Session) : Prop :=
  Paved s p t ∧ (pathPart p n).hasZero = false ∧ ∃ x, t.LeadsTo (pathPart p n) x

theorem makeDirectory_paves (hp : p.IsRead) (hn : n ≤ p.parts.length) :
    Ensures (Paved s p) (makeDirectory (pathPart p n).written) (fun _ => IsPaved s p n) fun _ => Paved s p := by
  intro t ht
  unfold makeDirectory locate
  rw [perform_bind, perform_query]
  by_cases hz : (pathPart p n).hasZero = true
  · rw [if_pos (show (pathPart p n).written.path.hasZero = true from hz)]
    exact ht
  rw [if_neg (show ¬ (pathPart p n).written.path.hasZero = true from hz)]
  rw [Bool.not_eq_true] at hz
  cases hf : t.find false (pathPart p n).written.path with
  | error code => exact ht
  | ok place =>
    obtain ⟨loc, node⟩ := place
    cases node with
    | some node => exact ht
    | none =>
      obtain ⟨hpaved, hleads⟩ := ht.put hp hn hz hf
      exact ⟨hpaved, hz, loc, hleads⟩

/-- What is done after a directory could not be made: this is no failure if it is there. -/
theorem unlessDirectory_paves (e : SystemError) :
    Ensures (Paved s p) (do
      let t ← get
      if Session.isDirectoryNode (t.node? true (pathPart p n).written.path) then return ()
      throw (.system e)) (fun _ => IsPaved s p n) fun _ => Paved s p := by
  refine Ensures.get_bind fun t => ?_
  by_cases hdir : Session.isDirectoryNode (t.node? true (pathPart p n).written.path) = true
  · rw [if_pos hdir]
    rintro _ ⟨rfl, ht⟩
    refine ⟨ht, ?_⟩
    unfold Session.node? at hdir
    split at hdir
    · cases hdir
    rename_i hz
    split at hdir
    · rename_i place hf
      obtain ⟨loc, node⟩ := place
      cases isDirectoryNode_iff.1 hdir
      exact ⟨Bool.eq_false_iff.2 hz, loc, leadsTo_iff_find.2 hf⟩
    · cases hdir
  · rw [if_neg hdir]
    exact Ensures.throw fun _ ht => ht.2

theorem ensureDirectory_paves (hp : p.IsRead) (hn : n ≤ p.parts.length) :
    Ensures (Paved s p) (ensureDirectory (pathPart p n).written) (fun _ => IsPaved s p n) fun _ => Paved s p := by
  refine (makeDirectory_paves hp hn).tryCatch fun e => ?_
  cases e with
  | system e => exact unlessDirectory_paves e
  | _ => exact Ensures.throw fun _ ht => ht

theorem makePart_paves (hp : p.IsRead) (hn : n ≤ p.parts.length) :
    Ensures (Paved s p) (makePart p n) (fun _ => IsPaved s p n) fun _ => Paved s p := by
  induction n with
  | zero => exact ensureDirectory_paves hp hn
  | succ n ih =>
    refine makePart_succ_alone (makeDirectory_paves hp hn) (fun _ => ?_) unlessDirectory_paves fun _ _ ht => ht
    -- the parent is made first; what it is does not matter
    exact ((ih (by omega)).mono (fun _ ht => ht) (fun _ _ ht => ht.1) fun _ _ ht => ht).bind fun _ =>
      ensureDirectory_paves hp hn

/-- Making a directory adds directories on its way only, and if it succeeds, the path leads to a directory. -/
theorem makeDirectories_paves (hp : p.IsRead) :
    Ensures (Paved s p) (makeDirectories p)
      (fun _ t => Paved s p t ∧ p.hasZero = false ∧ ∃ x, t.LeadsTo p x) fun _ => Paved s p := by
  have hwhole : pathPart p p.parts.length = p := by rw [pathPart, List.take_length]
  refine (makePart_paves hp (Nat.le_refl _)).mono (fun _ ht => ht) (fun _ t ht => ?_) fun _ _ ht => ht
  unfold IsPaved at ht
  rwa [hwhole] at ht

end Handout
