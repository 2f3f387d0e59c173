import Handout.Proofs.Archive.Extract
import Handout.Proofs.Files.Store

/-!
# Rebuilding a directory tree

Members that stand for what is in a directory tree are extracted into an empty directory.  After each of them the
directory holds what the tree has on the way to the members that are done (`Rebuilt`); the order of the members does
not matter.  When there is a member for everything in the tree, the directory holds the tree (`extractListing_rebuilds`).
-/

namespace Handout.Archive

open Handout.Action Session

variable {s t u : Session} {archive base : Path} {k : Location} {tree : Handout.Content} {names : List String}
  {done : List (List String)} {m : Member}

/-- A node as it is extracted: no file is executable. -/
def extracted : Node → Node
  | .file data _ => .file data false
  | node => node

@[simp] theorem extracted_directory : extracted .directory = .directory := rfl

/-- What a member is that stands for a node. -/
def MemberKind.ofNode : Node → MemberKind
  | .directory => .directory
  | .file data _ => .file (.ok ⟨data, none⟩)
  | .link target => .link target

/-- A directory tree without links, with names that are extracted. -/
structure IsTree (tree : Handout.Content) : Prop where
  root : tree [] = some .directory
  parent : ∀ {names name}, tree (names ++ [name]) ≠ none → tree names = some .directory
  proper : ∀ {names name}, tree (names ++ [name]) ≠ none → IsProper name
  quiet : ∀ {names name}, tree (names ++ [name]) ≠ none → name ∉ noiseNames
  noLink : ∀ names target, tree names ≠ some (.link target)

/-- What is on the way to something is a directory. -/
theorem IsTree.ancestor (h : IsTree tree) {rest : List String} (hn : tree (names ++ rest) ≠ none) (hne : rest ≠ []) :
    tree names = some .directory := by
  induction rest using List.reverseRecOn with
  | nil => exact absurd rfl hne
  | append_singleton rest c ih =>
    rw [← List.append_assoc] at hn
    have hparent := h.parent hn
    by_cases hr : rest = []
    · rwa [hr, List.append_nil] at hparent
    · exact ih (by rw [hparent]; exact Option.some_ne_none _) hr

/-- On the way to something all names are proper, and none is noise. -/
theorem IsTree.clean (h : IsTree tree) (hn : tree names ≠ none) : ∀ c ∈ names, IsProper c ∧ c ∉ noiseNames := by
  induction names using List.reverseRecOn with
  | nil => exact fun c hc => absurd hc List.not_mem_nil
  | append_singleton names last ih =>
    intro c hc
    rcases List.mem_append.1 hc with hc | hc
    · exact ih (by rw [h.parent hn]; exact Option.some_ne_none _) c hc
    · rw [List.mem_singleton.1 hc]
      exact ⟨h.proper hn, h.quiet hn⟩

/-- A member stands for what a tree has at some names. -/
structure Stands (archive : Path) (tree : Handout.Content) (names : List String) (m : Member) : Prop where
  path : memberPath archive m.name = .ok (if names = [] then none else some ⟨.relative, names⟩)
  node : ∃ node, tree names = some node ∧ m.kind = .ofNode node
  readable : m.encrypted = false

/-- Names that lead to one of some places, or to a directory on the way there. -/
def IsOnWay (places : List (List String)) (names : List String) : Prop := names = [] ∨ ∃ x ∈ places, names <+: x

instance (places : List (List String)) (names : List String) : Decidable (IsOnWay places names) :=
  inferInstanceAs (Decidable (_ ∨ _))

theorem isOnWay_concat {places : List (List String)} {x : List String} :
    IsOnWay (places ++ [x]) names ↔ IsOnWay places names ∨ names <+: x := by
  unfold IsOnWay
  simp only [List.mem_append, List.mem_singleton]
  constructor
  · rintro (hnil | ⟨y, hy | rfl, hyx⟩)
    · exact .inl (.inl hnil)
    · exact .inl (.inr ⟨y, hy, hyx⟩)
    · exact .inr hyx
  · rintro ((hnil | ⟨y, hy, hyx⟩) | hx)
    · exact .inl hnil
    · exact .inr ⟨y, .inl hy, hyx⟩
    · exact .inr ⟨x, .inr rfl, hx⟩

/-- Below a directory that was empty there is what a tree has on the way to the members that are done. -/
structure Rebuilt (s : Session) (base : Path) (k : Location) (tree : Handout.Content) (done : List (List String))
    (u : Session) : Prop where
  within : Within s u k
  leads : u.LeadsTo base k
  stored : ∀ names, u.files.get? (k ++ names) = if IsOnWay done names then (tree names).map extracted else none

/-- Where there is something, it is what the tree has. -/
theorem Rebuilt.eq_of_ne_none (h : Rebuilt s base k tree done u) (hn : u.files.get? (k ++ names) ≠ none) :
    u.files.get? (k ++ names) = (tree names).map extracted := by
  rw [h.stored] at hn ⊢
  split
  · rfl
  · rename_i hnot
    rw [if_neg hnot] at hn
    exact absurd rfl hn

/-- No file is in the way of a directory of the tree. -/
theorem Rebuilt.not_blocked (h : Rebuilt s base k tree done u) (ht : IsTree tree) (hd : tree names = some .directory) :
    ¬ Blocked (u.files.content k) names := by
  rintro ⟨first, ⟨rest, rfl⟩, hn, hdir⟩
  have hfirst : tree first = some .directory := by
    by_cases hr : rest = []
    · rwa [hr, List.append_nil] at hd
    · exact ht.ancestor (by rw [hd]; exact Option.some_ne_none _) hr
  refine hdir ((h.eq_of_ne_none hn).trans ?_)
  rw [hfirst]
  rfl

/-- A directory of the tree is made, with its parents. -/
theorem Rebuilt.makeDirectory (h : Rebuilt s base k tree done u) (ht : IsTree tree) (hd : tree names = some .directory) :
    ∃ v, (makeDirectory (base.append names)).perform u = (.ok (), v) ∧ Rebuilt s base k tree (done ++ [names]) v := by
  have hn : tree names ≠ none := by
    rw [hd]
    exact Option.some_ne_none _
  rcases perform_makeDirectories h.within h.leads fun c hc => (ht.clean hn c hc).1 with
    ⟨v, hperform, hmade⟩ | ⟨code, w, -, hblocked⟩
  · refine ⟨v, ?_, hmade.within, hmade.leads h.within h.leads, fun x => ?_⟩
    · unfold Archive.makeDirectory
      rw [perform_during, hperform]
    · rw [hmade.stored, h.stored]
      simp only [List.prefix_append, true_and, List.prefix_append_right_inj, isOnWay_concat]
      by_cases hx : x <+: names
      · have hdirectory : tree x = some .directory := by
          obtain ⟨rest, rfl⟩ := hx
          by_cases hr : rest = []
          · rwa [hr, List.append_nil] at hd
          · exact ht.ancestor hn hr
        rw [if_pos hx, if_pos (.inr hx), hdirectory]
        rfl
      · simp only [hx, if_false, or_false]
  · exact absurd hblocked (h.not_blocked ht hd)

/-- A file of the tree is written, after its parents have been made. -/
theorem Rebuilt.writeMember (archive : Path) (h : Rebuilt s base k tree done u) (ht : IsTree tree) {data : Bytes} {executable : Bool}
    (hf : tree names = some (.file data executable)) :
    ∃ v, (writeMember archive (base.append names) ⟨data, none⟩).perform u = (.ok (), v) ∧
      Rebuilt s base k tree (done ++ [names]) v := by
  have hn : tree names ≠ none := by
    rw [hf]
    exact Option.some_ne_none _
  rcases List.eq_nil_or_concat' names with rfl | ⟨init, c, rfl⟩
  · cases ht.root.symm.trans hf
  have hproper : IsProper c := ht.proper hn
  obtain ⟨v, hmake, hv⟩ := h.makeDirectory ht (ht.parent hn)
  have hdir : v.files.get? (k ++ init) = some .directory := by
    rw [hv.stored, if_pos (isOnWay_concat.2 (.inr (List.prefix_refl _))), ht.parent hn]
    rfl
  -- an earlier member of the same name has left nothing but this file
  have hold : v.files.get? (k ++ init ++ [c]) = none ∨ v.files.get? (k ++ init ++ [c]) = some (.file data false) := by
    rw [List.append_assoc, hv.stored, hf]
    split
    · exact .inr rfl
    · exact .inl rfl
  have hflag : Flagged (v.files.get? (k ++ init ++ [c])) false := hold.imp (fun h => ⟨h, rfl⟩) fun h => ⟨data, h⟩
  have hl : ∀ target, v.files.get? (k ++ init ++ [c]) ≠ some (.link target) := by
    intro target hlink
    rcases hold with h | h <;> cases h.symm.trans hlink
  have hreaches := reaches_child (hv.leads.append hv.within.sound hdir) hv.within.sound hproper hl
  rw [Path.child_eq_append, Path.append_append] at hreaches
  have hwrite := perform_writeFile data (w := (base.append (init ++ [c])).written) hreaches rfl hflag
  refine ⟨_, ?_, hv.within.put (List.prefix_append _ _) hdir hproper (fun hd => absurd hd hflag.ne_directory)
    (show Node.isLink (.file data false) = false from rfl), ?_, ?_⟩
  · unfold Archive.writeMember
    rw [Path.parent_append_concat, perform_bind_ok hmake, perform_during, perform_bind_ok hwrite]
    rfl
  · refine hv.leads.mono rfl (fun x hx => ?_) fun x target hx => ?_
    · dsimp only
      rw [Files.get?_put_of_ne (by simp), hx]
      rintro rfl
      exact hflag.ne_directory hx
    · dsimp only
      rw [Files.get?_put_of_ne (by simp), hx]
      rintro rfl
      exact hl target hx
  · intro x
    dsimp only
    rw [List.append_assoc, Files.get?_put (by simp), hv.stored]
    simp only [List.append_cancel_left_eq, isOnWay_concat, List.prefix_concat_iff]
    by_cases hx : x = init ++ [c]
    · subst hx
      rw [if_pos rfl, if_pos (.inr (.inl rfl)), hf]
      rfl
    · simp only [hx, if_false, false_or]

/-- A member of the tree is extracted. -/
theorem Rebuilt.extractMember (h : Rebuilt s base k tree done u) (ht : IsTree tree) (hm : Stands archive tree names m) :
    ∃ v, (extractMember archive (base.append names) m).perform u = (.ok (), v) ∧
      Rebuilt s base k tree (done ++ [names]) v := by
  obtain ⟨node, hnode, hkind⟩ := hm.node
  unfold Archive.extractMember
  rw [hm.readable, hkind]
  cases node with
  | directory => exact h.makeDirectory ht hnode
  | file data executable => exact h.writeMember archive ht hnode
  | link target => exact absurd hnode (ht.noLink names target)

/-- Steps that succeed one after the other, each with the next of some things in a list. -/
private theorem perform_forM {α β : Type} {f : α → Action Unit} {R : β → α → Prop} {I : List β → Session → Prop}
    (step : ∀ done b a s, R b a → I done s → ∃ t, (f a).perform s = (.ok (), t) ∧ I (done ++ [b]) t)
    {bs : List β} {as : List α} (h : List.Forall₂ R bs as) {done : List β} (hs : I done s) :
    ∃ t, (as.forM f).perform s = (.ok (), t) ∧ I (done ++ bs) t := by
  induction h generalizing done s with
  | nil => exact ⟨s, rfl, by rwa [List.append_nil]⟩
  | @cons b a bs as hab _ ih =>
    obtain ⟨t, hfirst, ht⟩ := step done b a s hab hs
    obtain ⟨u, hrest, hu⟩ := ih ht
    refine ⟨u, ?_, by rwa [List.append_assoc] at hu⟩
    show (f a >>= fun _ => as.forM f).perform s = _
    rw [perform_bind_ok hfirst]
    exact hrest

/-- Members that stand for everything in a tree are extracted to an empty directory, and the directory then holds the
tree. -/
theorem extractListing_rebuilds (ht : IsTree tree) (hs : s.Sound) (hleads : s.LeadsTo base k)
    (hempty : ∀ names, names ≠ [] → s.files.get? (k ++ names) = none) {all : List (List String)} {members : List Member}
    (hmembers : List.Forall₂ (Stands archive tree) all members)
    (hall : ∀ names, names ≠ [] → tree names ≠ none → ∃ x ∈ all, names <+: x) :
    ∃ u, (extractListing archive base ⟨members, none⟩).perform s = (.ok (), u) ∧ Within s u k ∧
      u.files.content k = fun names => (tree names).map extracted := by
  have hdir := hleads.directory hs
  have hlink : ∀ rel target, s.files.get? (k ++ rel) ≠ some (.link target) := by
    intro rel target hlink
    by_cases hrel : rel = []
    · rw [hrel, List.append_nil, hdir] at hlink
      cases hlink
    · cases (hempty rel hrel).symm.trans hlink
  have hstart : Rebuilt s base k tree [] s := by
    refine ⟨.refl hs hdir hlink, hleads, fun names => ?_⟩
    by_cases hnil : names = []
    · subst hnil
      rw [if_pos (.inl rfl), List.append_nil, hdir, ht.root]
      rfl
    · rw [if_neg (by simp [IsOnWay, hnil]), hempty names hnil]
  obtain ⟨u, hperform, hu⟩ : ∃ u, (extractListing archive base ⟨members, none⟩).perform s = (.ok (), u) ∧
      Rebuilt s base k tree all u := by
    unfold extractListing
    refine Exists.imp (fun u hu => ⟨(perform_bind_ok hu.1 _).trans (perform_pure _ u), hu.2⟩)
      (perform_forM (fun done names m u hm hu => ?_) hmembers hstart)
    have hpath := hm.path
    obtain ⟨node, hnode, -⟩ := hm.node
    -- a member for the top directory itself adds nothing to what has been made
    by_cases hnil : names = []
    · subst hnil
      rw [if_pos rfl] at hpath
      refine ⟨u, ?_, hu.within, hu.leads, fun x => ?_⟩
      · rw [perform_bind, perform_query, hpath]
        rfl
      · have hiff : IsOnWay (done ++ [[]]) x ↔ IsOnWay done x := by
          rw [isOnWay_concat, List.prefix_nil]
          exact ⟨fun h => h.elim id .inl, .inl⟩
        rw [hu.stored]
        simp only [hiff]
    · rw [if_neg hnil] at hpath
      have hquiet : names.any noiseNames.contains = false := by
        rw [List.any_eq_false]
        intro c hc
        have hclean := (ht.clean (by rw [hnode]; exact Option.some_ne_none _) c hc).2
        simpa using hclean
      rw [perform_bind, perform_query, hpath]
      dsimp only
      rw [hquiet]
      exact hu.extractMember ht hm
  refine ⟨u, hperform, hu.within, ?_⟩
  funext names
  unfold Files.content
  rw [hu.stored]
  split
  · rfl
  · rename_i hnot
    have hnone : tree names = none := by
      by_contra hn
      have hne : names ≠ [] := fun he => hnot (.inl he)
      exact hnot (.inr (hall names hne hn))
    rw [hnone]
    rfl

end Handout.Archive
