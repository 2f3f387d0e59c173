import Mathlib.Data.List.Nodup
import Handout.Files.Traverse
import Handout.Proofs.Files.Look
import Handout.Proofs.Session

/-!
# What a traversal visits

`Files.below` lists what is stored below a directory, and `mem_below` says that nothing is left out when the bound on
the nesting is large enough.  A traversal visits exactly this list as long as directories that are still to be listed
hold what they held at first (`foldBelow_follows`); so it does if its visits leave that part of the files alone
(`foldBelow_ensures`).
-/

namespace Handout

namespace Files

variable {f : Files} {dir x : Location} {levels : Nat}

/-- What is stored below a directory, a directory before its entries, the entries in order of their names. -/
def below (f : Files) : Nat → Location → List Location
  | 0, _ => []
  | levels + 1, dir =>
    if f.get? dir = some .directory then
      (sortNames (f.names dir)).flatMap fun name => (dir ++ [name]) :: below f levels (dir ++ [name])
    else []

/-- Where something is stored, the first entry on the way is stored. -/
theorem WellFormed.first (hf : f.WellFormed) {name : String} {rest : List String}
    (h : f.get? (dir ++ name :: rest) ≠ none) : f.get? (dir ++ [name]) ≠ none := by
  by_cases hr : rest = []
  · rwa [hr] at h
  · rw [List.append_cons] at h
    rw [hf.ancestor h hr]
    exact Option.some_ne_none _

private theorem mem_sorted_names {name : String} : name ∈ sortNames (f.names dir) ↔ f.get? (dir ++ [name]) ≠ none := by
  rw [← mem_names]
  exact (sortBy_perm _ _).mem_iff

/-- Only what is stored below a directory is listed. -/
theorem exists_of_mem_below (h : x ∈ f.below levels dir) : ∃ rel, rel ≠ [] ∧ x = dir ++ rel ∧ f.get? x ≠ none := by
  induction levels generalizing dir with
  | zero => cases h
  | succ levels ih =>
    unfold below at h
    split at h
    · obtain ⟨name, hname, h⟩ := List.mem_flatMap.1 h
      rcases List.mem_cons.1 h with rfl | h
      · exact ⟨[name], by simp, rfl, mem_sorted_names.1 hname⟩
      · obtain ⟨rel, -, hx, hn⟩ := ih h
        exact ⟨name :: rel, by simp, by rw [hx, List.append_assoc]; rfl, hn⟩
    · cases h

/-- What is listed with a name starts with this name. -/
theorem exists_of_mem_entries {name : String} (h : x ∈ (dir ++ [name]) :: f.below levels (dir ++ [name])) :
    ∃ rel, x = dir ++ name :: rel := by
  rcases List.mem_cons.1 h with rfl | h
  · exact ⟨[], rfl⟩
  · obtain ⟨rel, -, rfl, -⟩ := exists_of_mem_below h
    exact ⟨rel, by rw [List.append_assoc, List.singleton_append]⟩

/-- Everything below a directory is listed. -/
theorem mem_below (hf : f.WellFormed) (h : ∀ rel, f.get? (dir ++ rel) ≠ none → rel.length ≤ levels) :
    x ∈ f.below levels dir ↔ ∃ rel, rel ≠ [] ∧ x = dir ++ rel ∧ f.get? x ≠ none := by
  refine ⟨exists_of_mem_below, ?_⟩
  rintro ⟨rel, hrel, rfl, hn⟩
  induction levels generalizing dir rel with
  | zero =>
    have hlength := h rel hn
    have hpos := List.length_pos_iff.2 hrel
    omega
  | succ levels ih =>
    obtain ⟨name, rest, rfl⟩ := List.exists_cons_of_ne_nil hrel
    unfold below
    rw [if_pos (hf.ancestor hn hrel)]
    refine List.mem_flatMap.2 ⟨name, mem_sorted_names.2 (hf.first hn), ?_⟩
    by_cases hr : rest = []
    · rw [hr]
      exact List.mem_cons_self ..
    · refine List.mem_cons_of_mem _ ?_
      rw [List.append_cons] at hn
      have hbound : ∀ rel, f.get? (dir ++ [name] ++ rel) ≠ none → rel.length ≤ levels := by
        intro rel hrel
        rw [← List.append_cons] at hrel
        have := h _ hrel
        rw [List.length_cons] at this
        omega
      have hrest := ih hbound _ hr hn
      rwa [List.append_assoc, List.singleton_append] at hrest

/-- What is listed depends on what is stored below the directory only, if the bounds on the nesting are large enough. -/
theorem below_congr {g : Files} {n m : Nat} (hsame : ∀ rel, f.get? (dir ++ rel) = g.get? (dir ++ rel))
    (hn : ∀ rel, f.get? (dir ++ rel) ≠ none → rel.length ≤ n) (hm : ∀ rel, f.get? (dir ++ rel) ≠ none → rel.length ≤ m) :
    f.below n dir = g.below m dir := by
  -- where a bound is zero, there is nothing below the directory
  have hempty : ∀ {f : Files} {dir : Location} (k : Nat), (∀ rel, f.get? (dir ++ rel) ≠ none → rel.length ≤ 0) →
      f.below k dir = [] := by
    intro f dir k h
    rw [List.eq_nil_iff_forall_not_mem]
    intro x hx
    obtain ⟨rel, hrel, rfl, hx⟩ := exists_of_mem_below hx
    exact hrel (List.eq_nil_of_length_eq_zero (Nat.le_zero.1 (h rel hx)))
  induction n generalizing dir m with
  | zero =>
    rw [hempty 0 hn, hempty m fun rel => by rw [← hsame]; exact hn rel]
  | succ n ih =>
    cases m with
    | zero => rw [hempty _ hm, hempty 0 fun rel => by rw [← hsame]; exact hm rel]
    | succ m =>
      have hdir := hsame []
      rw [List.append_nil] at hdir
      have hnames : sortNames (f.names dir) = sortNames (g.names dir) := by
        refine sortNames_eq_of_perm ((List.perm_ext_iff_of_nodup nodup_names nodup_names).2 fun name => ?_)
        rw [mem_names, mem_names, hsame]
      unfold below
      rw [← hdir, ← hnames]
      split
      · refine List.flatMap_congr fun name _ => ?_
        have hstep : ∀ k, (∀ rel, f.get? (dir ++ rel) ≠ none → rel.length ≤ k + 1) →
            ∀ rel, f.get? (dir ++ [name] ++ rel) ≠ none → rel.length ≤ k := by
          intro k h rel hrel
          rw [List.append_assoc] at hrel
          have := h _ hrel
          simp only [List.singleton_append, List.length_cons] at this
          omega
        rw [ih (fun rel => by rw [List.append_assoc]; exact hsame _) (hstep n hn) (hstep m hm)]
      · rfl

/-- Nothing is listed twice. -/
theorem nodup_below : (f.below levels dir).Nodup := by
  induction levels generalizing dir with
  | zero => exact List.nodup_nil
  | succ levels ih =>
    unfold below
    split
    · refine List.nodup_flatMap.2 ⟨fun name _ => ?_, ?_⟩
      · refine List.nodup_cons.2 ⟨fun h => ?_, ih⟩
        obtain ⟨rel, hrel, he, -⟩ := exists_of_mem_below h
        exact hrel (List.self_eq_append_right.1 he)
      · have hnodup : (sortNames (f.names dir)).Nodup := (sortBy_perm _ _).nodup_iff.2 nodup_names
        refine hnodup.imp fun {a b} hab => ?_
        intro y hya hyb
        obtain ⟨rel, hrel⟩ := exists_of_mem_entries hya
        obtain ⟨rel', hrel'⟩ := exists_of_mem_entries hyb
        have := List.append_cancel_left (hrel.symm.trans hrel')
        rw [List.cons.injEq] at this
        exact hab this.1
    · exact List.nodup_nil

/-- The names that lead from a directory to what is stored below it, in the order of a traversal. -/
def listing (f : Files) (dir : Location) : List (List String) :=
  (f.below (f.height + 1) dir).map fun x => x.drop dir.length

theorem mem_listing (hf : f.WellFormed) {rel : List String} :
    rel ∈ f.listing dir ↔ rel ≠ [] ∧ f.get? (dir ++ rel) ≠ none := by
  have hbound : ∀ rel, f.get? (dir ++ rel) ≠ none → rel.length ≤ f.height + 1 := by
    intro rel hn
    have hlength := length_le_height hn
    rw [List.length_append] at hlength
    omega
  constructor
  · intro h
    obtain ⟨x, hx, rfl⟩ := List.mem_map.1 h
    obtain ⟨rel, hrel, rfl, hn⟩ := exists_of_mem_below hx
    rw [List.drop_left]
    exact ⟨hrel, hn⟩
  · rintro ⟨hrel, hn⟩
    exact List.mem_map.2 ⟨dir ++ rel, (mem_below hf hbound).2 ⟨rel, hrel, rfl, hn⟩, List.drop_left⟩

theorem nodup_listing : (f.listing dir).Nodup := by
  refine List.Nodup.map_on ?_ nodup_below
  intro x hx y hy he
  obtain ⟨rel, -, rfl, -⟩ := exists_of_mem_below hx
  obtain ⟨rel', -, rfl, -⟩ := exists_of_mem_below hy
  rw [List.drop_left, List.drop_left] at he
  rw [he]

theorem listing_congr {g : Files} (hsame : ∀ rel, f.get? (dir ++ rel) = g.get? (dir ++ rel)) :
    f.listing dir = g.listing dir := by
  have hbound : ∀ {f : Files} {rel}, f.get? (dir ++ rel) ≠ none → rel.length ≤ f.height + 1 := by
    intro f rel hn
    have hlength := length_le_height hn
    rw [List.length_append] at hlength
    omega
  unfold listing
  rw [below_congr hsame (fun rel => hbound) fun rel hn => hbound (by rwa [← hsame])]

end Files

namespace Action

variable {σ : Type} {visit : σ → Path → Action σ} {f : Files} {top : Location} {E : Failure → Session → Prop}

/-- A part of the files that a traversal is to visit: it stays as it is, and there are no links in it. -/
structure Steady (f : Files) (top : Location) (s : Session) : Prop where
  sound : s.Sound
  same : ∀ rel, s.files.get? (top ++ rel) = f.get? (top ++ rel)
  noLink : ∀ rel target, f.get? (top ++ rel) ≠ some (.link target)

variable {P : Session → Prop} {rel : List String}

theorem Steady.find {s : Session} (h : Steady f top s) (follow : Bool) (hn : f.get? (top ++ rel) ≠ none) :
    s.find follow (Location.path (top ++ rel)) = .ok ⟨top ++ rel, f.get? (top ++ rel)⟩ := by
  have hfind := Session.find_path follow h.sound (by rw [h.same]; exact hn) (fun target => by
    rw [h.same]
    exact h.noLink rel target)
  rwa [h.same] at hfind

theorem Steady.look {s : Session} (h : Steady f top s) (follow : Bool) (hn : f.get? (top ++ rel) ≠ none) :
    s.look follow (Location.path (top ++ rel)) = .ok (f.get? (top ++ rel)) := by
  have hlook := Session.look_path follow h.sound (by rw [h.same]; exact hn) (fun target => by
    rw [h.same]
    exact h.noLink rel target)
  rwa [h.same] at hlook

theorem Steady.isDirectory? {s : Session} (h : Steady f top s) (hn : f.get? (top ++ rel) ≠ none) :
    s.isDirectory? (Location.path (top ++ rel)) = .ok (Session.isDirectoryNode (f.get? (top ++ rel))) := by
  unfold Session.isDirectory?
  rw [h.look true hn]
  rfl

theorem Steady.isLink? {s : Session} (h : Steady f top s) (hn : f.get? (top ++ rel) ≠ none) :
    s.isLink? (Location.path (top ++ rel)) = .ok false := by
  unfold Session.isLink?
  rw [h.look false hn]
  cases hnode : f.get? (top ++ rel) with
  | none => rfl
  | some node =>
    cases node with
    | link target => exact absurd hnode (h.noLink rel target)
    | _ => rfl

/-- The names in a directory are those that were there at first. -/
theorem Steady.sorted_names {s : Session} (h : Steady f top s) (hn : f.get? (top ++ rel) ≠ none) {found : List String}
    (hr : s.names? (Location.path (top ++ rel)).written = .ok found) :
    sortNames found = sortNames (f.names (top ++ rel)) := by
  obtain ⟨loc, hf, rfl⟩ := Session.names?_eq_ok hr
  obtain rfl : loc = top ++ rel := (Place.mk.inj (Except.ok.inj (hf.symm.trans (h.find true hn)))).1
  refine sortNames_eq_of_perm ((List.perm_ext_iff_of_nodup Files.nodup_names Files.nodup_names).2 fun name => ?_)
  rw [Files.mem_names, Files.mem_names, List.append_assoc, h.same]

theorem Steady.isDirectory_ensures (hP : ∀ s, P s → Steady f top s) (hn : f.get? (top ++ rel) ≠ none) :
    Ensures P (isDirectory (Location.path (top ++ rel)))
      (fun b s => P s ∧ b = Session.isDirectoryNode (f.get? (top ++ rel))) E := by
  refine Ensures.query fun s hs => ?_
  rw [(hP s hs).isDirectory? hn]
  exact ⟨hs, rfl⟩

theorem Steady.isLink_ensures (hP : ∀ s, P s → Steady f top s) (hn : f.get? (top ++ rel) ≠ none) :
    Ensures P (isLink (Location.path (top ++ rel))) (fun b s => P s ∧ b = false) E := by
  refine Ensures.query fun s hs => ?_
  rw [(hP s hs).isLink? hn]
  exact ⟨hs, rfl⟩

theorem Steady.names_ensures (hP : ∀ s, P s → Steady f top s)
    (hE : ∀ s e, P s → s.names? (Location.path (top ++ rel)).written = .error e → E e s) (hn : f.get? (top ++ rel) ≠ none) :
    Ensures P (names (Location.path (top ++ rel)).written)
      (fun found s => P s ∧ sortNames found = sortNames (f.names (top ++ rel))) E := by
  refine Ensures.query fun s hs => ?_
  cases hr : s.names? (Location.path (top ++ rel)).written with
  | error e => exact hE s e hs hr
  | ok found => exact ⟨hs, (hP s hs).sorted_names hn hr⟩

/-- A traversal visits what is below its start, as long as it goes on seeing the directories there: directories that
have not been visited yet have to hold the names that they held at first. -/
theorem foldBelow_follows {p : Path} {all : List Location} (I : List Location → σ → Session → Prop)
    (looks : ∀ done acc s rel, I done acc s → f.get? (top ++ rel) ≠ none →
      s.isDirectory? (p.append rel) = .ok (Session.isDirectoryNode (f.get? (top ++ rel))) ∧
        s.isLink? (p.append rel) = .ok false)
    (lists : ∀ done acc s rel levels rest found, I done acc s → all = done ++ f.below (levels + 1) (top ++ rel) ++ rest →
      f.get? (top ++ rel) = some .directory → s.names? (p.append rel).written = .ok found →
      sortNames found = sortNames (f.names (top ++ rel)))
    (fails : ∀ done acc s rel e, I done acc s → f.get? (top ++ rel) = some .directory →
      s.names? (p.append rel).written = .error e → E e s)
    (visits : ∀ done rel rest acc, all = done ++ (top ++ rel) :: rest → f.get? (top ++ rel) ≠ none →
      Ensures (I done acc) (visit acc (p.append rel)) (I (done ++ [top ++ rel])) E)
    (levels : Nat) (rel : List String) (hn : f.get? (top ++ rel) ≠ none) (done rest : List Location)
    (hall : all = done ++ f.below levels (top ++ rel) ++ rest) (acc : σ) :
    Ensures (I done acc) (foldBelow true visit levels acc (p.append rel)) (I (done ++ f.below levels (top ++ rel))) E := by
  induction levels generalizing rel done rest acc with
  | zero =>
    rw [Files.below, List.append_nil]
    exact Ensures.pure fun s hs => hs
  | succ levels ih =>
    have hdirectory : Ensures (I done acc) (isDirectory (p.append rel))
        (fun b s => I done acc s ∧ b = Session.isDirectoryNode (f.get? (top ++ rel))) E := by
      refine Ensures.query fun s hs => ?_
      rw [(looks done acc s rel hs hn).1]
      exact ⟨hs, rfl⟩
    have hlink : Ensures (I done acc) (isLink (p.append rel)) (fun b s => I done acc s ∧ b = false) E := by
      refine Ensures.query fun s hs => ?_
      rw [(looks done acc s rel hs hn).2]
      exact ⟨hs, rfl⟩
    unfold foldBelow
    refine hdirectory.bind fun b => Ensures.of_and fun hb => ?_
    refine hlink.bind fun b' => Ensures.of_and fun hb' => ?_
    subst hb hb'
    by_cases hd : f.get? (top ++ rel) = some .directory
    · have hnames : Ensures (I done acc) (names (p.append rel).written)
          (fun found s => I done acc s ∧ sortNames found = sortNames (f.names (top ++ rel))) E := by
        refine Ensures.query fun s hs => ?_
        cases hr : s.names? (p.append rel).written with
        | error e => exact fails done acc s rel e hs hd hr
        | ok found => exact ⟨hs, lists done acc s rel levels rest found hs hall hd hr⟩
      have hbelow : f.below (levels + 1) (top ++ rel) = (sortNames (f.names (top ++ rel))).flatMap fun name =>
          (top ++ rel ++ [name]) :: f.below levels (top ++ rel ++ [name]) := by
        rw [Files.below, if_pos hd]
      rw [hd]
      refine hnames.bind fun found => Ensures.of_and fun hfound => ?_
      simp only [if_true]
      rw [hfound, hbelow]
      rw [hbelow] at hall
      let entries : String → List Location := fun name =>
        (top ++ rel ++ [name]) :: f.below levels (top ++ rel ++ [name])
      -- an entry counts as done together with all that is below it
      refine (Ensures.foldlM (fun names acc => I (done ++ names.flatMap entries) acc) ?_ acc).mono
        (fun s hs => by simpa using hs) (fun _ _ hs => hs) fun _ _ hs => hs
      intro before name after acc hsplit
      have hname : name ∈ sortNames (f.names (top ++ rel)) := by
        rw [hsplit]
        simp
      have hexists : f.get? (top ++ (rel ++ [name])) ≠ none := by
        rw [← List.append_assoc]
        exact Files.mem_names.1 ((sortBy_perm _ _).mem_iff.1 hname)
      have hall' : all = (done ++ before.flatMap entries) ++ (top ++ rel ++ [name]) ::
          (f.below levels (top ++ rel ++ [name]) ++ after.flatMap entries ++ rest) := by
        rw [hall, hsplit]
        simp [entries]
      have hchild : (p.append rel).child name = p.append (rel ++ [name]) := Path.append_append ..
      have hdone : done ++ (before ++ [name]).flatMap entries =
          (done ++ before.flatMap entries ++ [top ++ (rel ++ [name])]) ++ f.below levels (top ++ (rel ++ [name])) := by
        simp [entries]
      rw [hchild, hdone]
      refine (visits _ _ _ acc (by rw [← List.append_assoc]; exact hall') hexists).bind fun acc => ?_
      refine ih (rel ++ [name]) hexists _ (after.flatMap entries ++ rest) ?_ acc
      rw [hall']
      simp
    · have hbelow : f.below (levels + 1) (top ++ rel) = [] := by
        rw [Files.below, if_neg hd]
      rw [hbelow, Session.isDirectoryNode_eq_false.2 hd, List.append_nil]
      exact Ensures.pure fun s hs => hs

/-- A traversal that leaves the part of the files that it visits alone visits exactly what is below its start. -/
theorem foldBelow_ensures {all : List Location} (I : List Location → σ → Session → Prop)
    (steady : ∀ done acc s, I done acc s → Steady f top s)
    (fails : ∀ done acc s rel e, I done acc s → f.get? (top ++ rel) = some .directory →
      s.names? (Location.path (top ++ rel)).written = .error e → E e s)
    (visits : ∀ done loc rest acc, all = done ++ loc :: rest →
      Ensures (I done acc) (visit acc loc.path) (I (done ++ [loc])) E)
    (levels : Nat) (rel : List String) (hn : f.get? (top ++ rel) ≠ none) (done rest : List Location)
    (hall : all = done ++ f.below levels (top ++ rel) ++ rest) (acc : σ) :
    Ensures (I done acc) (foldBelow true visit levels acc (Location.path (top ++ rel)))
      (I (done ++ f.below levels (top ++ rel))) E :=
  foldBelow_follows (p := top.path) I
    (fun done acc s _ hs hn => ⟨(steady done acc s hs).isDirectory? hn, (steady done acc s hs).isLink? hn⟩)
    (fun done acc s _ _ _ _ hs _ hd hr => (steady done acc s hs).sorted_names (by rw [hd]; exact Option.some_ne_none _) hr)
    fails (fun done _ rest acc hall _ => visits done _ rest acc hall) levels rel hn done rest hall acc

/-- A traversal preserves what its visits preserve. -/
theorem foldBelow_preserves {visit : σ → Path → Action σ} {Inv : Session → Prop}
    (hvisit : ∀ acc p, Preserves Inv (visit acc p)) (sorted : Bool) (levels : Nat) (acc : σ) (dir : Path) :
    Preserves Inv (foldBelow sorted visit levels acc dir) := by
  induction levels generalizing acc dir with
  | zero => exact Preserves.pure _
  | succ levels ih =>
    unfold foldBelow
    refine (Preserves.query _).bind fun b => (Preserves.query _).bind fun b' => ?_
    split
    · exact (Preserves.query _).bind fun names => Preserves.foldlM
        (fun acc name _ => (hvisit acc _).bind fun acc => ih acc _) acc
    · exact Preserves.pure _

theorem looks_descendants (top : Path) (includeTop sorted : Bool) : Looks (descendants top includeTop sorted) := by
  unfold descendants
  refine Looks.get.bind fun s => ?_
  exact looks_of_preserves fun t => foldBelow_preserves (fun acc p => Preserves.pure _) sorted _ _ top

theorem looks_filesIn (dir : Path) : Looks (filesIn dir) := by
  unfold filesIn entriesWhere
  refine (Looks.query _).bind fun names => Looks.bind ?_ fun kept => Looks.pure _
  exact looks_of_preserves fun s => Preserves.filterM fun name _ => Preserves.query _

/-! ### Visits by depth -/

theorem looks_isDirectory (p : Path) : Looks (isDirectory p) := Looks.query _

theorem looks_isFile (p : Path) : Looks (isFile p) := Looks.query _

/-- What a visit by depth keeps, when all that is visited has a property that passes on to subdirectories. -/
theorem foldByDepth_ensures {visit : σ → Path → Action (Bool × σ)} {J : σ → Session → Prop} {R : Path → Prop}
    (visits : ∀ acc p, R p → Ensures (J acc) (visit acc p) (fun r s => J r.2 s) E)
    (children : ∀ acc p, R p → Ensures (J acc) (readableDirectoriesIn p) (fun ps s => J acc s ∧ ∀ q ∈ ps, R q) E)
    (steps : Nat) (acc : σ) (queue : List Path) (hq : ∀ p ∈ queue, R p) :
    Ensures (J acc) (foldByDepth visit steps acc queue) J E := by
  induction steps generalizing acc queue with
  | zero => exact Ensures.pure fun s hs => hs
  | succ steps ih =>
    cases queue with
    | nil => exact Ensures.pure fun s hs => hs
    | cons dir queue =>
      have hdir : R dir := hq dir (List.mem_cons_self ..)
      unfold foldByDepth
      refine (visits acc dir hdir).bind fun r => ?_
      obtain ⟨stop, acc'⟩ := r
      dsimp only
      split
      · exact Ensures.pure fun s hs => hs
      · refine (children acc' dir hdir).bind fun ps => ?_
        refine Ensures.of_and fun hps => ?_
        refine ih acc' (queue ++ ps) fun p hp => ?_
        rcases List.mem_append.1 hp with hp | hp
        · exact hq p (List.mem_cons_of_mem _ hp)
        · exact hps p hp

/-- A path to a directory in a part of the files. -/
def IsDirectoryIn (f : Files) (top : Location) (p : Path) : Prop :=
  ∃ rel, p = Location.path (top ++ rel) ∧ f.get? (top ++ rel) = some .directory

theorem IsDirectoryIn.names_ensures {p : Path} (hp : IsDirectoryIn f top p) (hP : ∀ s, P s → Steady f top s)
    (hE : ∀ s e, P s → E e s) :
    Ensures P (names p.written) (fun found s => P s ∧ ∀ name ∈ found, ∃ rel, p.child name = Location.path (top ++ rel) ∧
      f.get? (top ++ rel) ≠ none) E := by
  obtain ⟨rel, rfl, hd⟩ := hp
  have hn : f.get? (top ++ rel) ≠ none := by
    rw [hd]
    exact Option.some_ne_none _
  refine (Steady.names_ensures hP (fun s e hs _ => hE s e hs) hn).mono (fun _ hs => hs) (fun found s hs => ⟨hs.1, fun name hname => ?_⟩)
    fun _ _ hs => hs
  have hmem : name ∈ f.names (top ++ rel) := by
    have h := (sortBy_perm (fun a b => decide (a ≤ b)) found).mem_iff.2 hname
    rw [show sortBy _ found = sortNames found from rfl, hs.2] at h
    exact (sortBy_perm _ _).mem_iff.1 h
  refine ⟨rel ++ [name], ?_, ?_⟩
  · rw [← List.append_assoc]
    rfl
  · rw [← List.append_assoc]
    exact Files.mem_names.1 hmem

theorem IsDirectoryIn.readableDirectoriesIn_ensures {p : Path} (hp : IsDirectoryIn f top p)
    (hP : ∀ s, P s → Steady f top s) (hlog : ∀ s record, P s → P { s with log := s.log ++ [record] }) :
    Ensures P (readableDirectoriesIn p) (fun ps s => P s ∧ ∀ q ∈ ps, IsDirectoryIn f top q) fun _ => P := by
  have hdirectories : Ensures P (directoriesIn p) (fun ps s => P s ∧ ∀ q ∈ ps, IsDirectoryIn f top q) fun _ => P := by
    unfold directoriesIn entriesWhere
    refine (hp.names_ensures hP fun _ _ hs => hs).bind fun found => ?_
    refine Ensures.of_and fun hfound => ?_
    refine (Ensures.filterM fun name hname => ?_ : Ensures P _
      (fun kept s => P s ∧ ∀ name ∈ kept, name ∈ found ∧ IsDirectoryIn f top (p.child name)) _).bind fun kept => ?_
    · obtain ⟨rel, hchild, hn⟩ := hfound name hname
      rw [hchild]
      refine (Steady.isDirectory_ensures hP hn).bind fun b => Ensures.of_and fun hb => ?_
      cases b with
      | false => exact Ensures.pure fun s hs => ⟨hs, fun h => by cases h⟩
      | true =>
        refine (Steady.isLink_ensures hP hn).bind fun b' => ?_
        refine Ensures.pure fun s hs => ⟨hs.1, fun _ => ⟨rel, rfl, ?_⟩⟩
        unfold Session.isDirectoryNode at hb
        split at hb
        · assumption
        · cases hb
    · refine Ensures.pure fun s hs => ⟨hs.1, fun q hq => ?_⟩
      obtain ⟨name, hname, rfl⟩ := List.mem_map.1 hq
      exact (hs.2 name ((sortBy_perm _ _).mem_iff.1 hname)).2
  refine Ensures.tryCatch hdirectories fun e => ?_
  split
  · refine Ensures.bind (Ensures.note hlog) fun _ => ?_
    exact Ensures.pure fun s hs => ⟨hs, fun q hq => by cases hq⟩
  · exact Ensures.throw fun s hs => hs

end Action

end Handout
