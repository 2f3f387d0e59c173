import Handout.Archive.Create
import Handout.Proofs.Files.Enumeration
import Handout.Proofs.Files.Listable
import Handout.Proofs.Files.Store

/-!
# The entries of a directory

A traversal of a directory lists what `Files.listing` says (`perform_descendants`), and the entries are made of what
is stored there, one for each path, in the same order (`perform_entries`).
-/

namespace Handout

open Handout.Action

variable {s : Session} {p : Path} {d : Location} {rel : List String} {top : Option Path} {format : Archive.Format}

namespace Action

open Session

section Fold

variable {σ : Type} {P : Session → Prop} {E : Failure → Session → Prop} {f : Files}

/-- A traversal by visits that only look at the files comes to all that is below a directory, in order, unless some
directory is locked. -/
theorem foldBelow_straight (visit : σ → Path → Action σ) (g : σ → List String → σ)
    (hP : ∀ s, P s → s.Straight p d ∧ s.files = f) (hE : ∀ e s rel, P s → p.append rel ∈ s.locked → E e s)
    (hvisit : ∀ acc rel, f.get? (d ++ rel) ≠ none →
      Ensures P (visit acc (p.append rel)) (fun acc' s => P s ∧ acc' = g acc rel) E)
    (levels : Nat) (hn : f.get? (d ++ rel) ≠ none) (acc : σ) :
    Ensures P (foldBelow true visit levels acc (p.append rel))
      (fun acc' s => P s ∧ acc' = (f.below levels (d ++ rel)).foldl (fun acc x => g acc (x.drop d.length)) acc) E := by
  -- what has been computed so far is what the visited locations give one after the other
  have hall : f.below levels (d ++ rel) = [] ++ f.below levels (d ++ rel) ++ [] := by simp
  refine (foldBelow_follows
    (fun done acc' s => P s ∧ acc' = done.foldl (fun acc x => g acc (x.drop d.length)) acc) (fun _ _ s rel hs hn => ?_)
    (fun _ _ s rel _ _ found hs _ hd hr => ?_) (fun _ _ s rel e hs hd hr => ?_) (fun done rel _ acc' _ hn => ?_) levels rel hn
    [] [] hall acc).mono (fun s hs => ⟨hs, rfl⟩) (fun _ _ hs => hs) fun _ _ hs => hs
  · obtain ⟨hstraight, rfl⟩ := hP s hs.1
    exact ⟨hstraight.isDirectory? hn, hstraight.isLink? hn⟩
  · obtain ⟨hstraight, rfl⟩ := hP s hs.1
    rw [hstraight.eq_names hd hr]
  · obtain ⟨hstraight, rfl⟩ := hP s hs.1
    exact hE e s rel hs.1 (hstraight.mem_locked hd hr)
  · refine Ensures.of_and fun hacc => (hvisit acc' rel hn).mono (fun _ hs => hs) (fun acc'' s hs => ⟨hs.1, ?_⟩) fun _ _ hs => hs
    rw [hs.2, hacc, List.foldl_concat, List.drop_left]

end Fold

/-- All paths below a directory. -/
theorem perform_descendants (h : s.Listed p d) :
    (descendants p false true).perform s = (.ok ((s.files.listing d).map p.append), s) := by
  have hfinds : s.Finds p d := ⟨h.sound, h.reaches.find false, by rw [h.directory]; exact Option.some_ne_none _⟩
  rcases descendants_cases hfinds false with ⟨-, hall⟩ | ⟨rel, e, hobstructs, -⟩
  · exact hall
  · cases hobstructs with
    | locked _ hlocked => exact absurd hlocked (h.unlocked rel)
    | tooLong htarget => exact absurd htarget (h.noLink rel _)

/-- The paths below a directory that pass a test, which looks at no more than the files, unless some directory is
locked. -/
theorem below_straight {P : Session → Prop} {E : Failure → Session → Prop} {f : Files} {keep : Path → Action Bool}
    {test : List String → Bool} (hP : ∀ s, P s → s.Straight p d ∧ s.files = f)
    (hE : ∀ e s rel, P s → p.append rel ∈ s.locked → E e s) (hd : f.get? d = some .directory)
    (hkeep : ∀ rel, f.get? (d ++ rel) ≠ none →
      Ensures P (keep (p.append rel)) (fun b s => P s ∧ b = test rel) E) :
    Ensures P (Action.below p keep) (fun ps s => P s ∧ ps = ((f.listing d).filter test).map p.append) E := by
  have hn : f.get? (d ++ []) ≠ none := by
    rw [List.append_nil, hd]
    exact Option.some_ne_none _
  have hfold := foldBelow_straight (fun acc q => return if ← keep q then acc ++ [q] else acc)
    (fun acc rel => if test rel then acc ++ [p.append rel] else acc) hP hE (fun acc rel hrel =>
      (hkeep rel hrel).bind fun b => Ensures.of_and fun hb => Ensures.pure fun s hs => ⟨hs, by rw [hb]⟩) (f.height + 1) hn []
  rw [Path.append_nil, List.append_nil] at hfold
  have hfilter : ∀ (l : List Location) (acc : List Path),
      l.foldl (fun acc x => if test (x.drop d.length) then acc ++ [p.append (x.drop d.length)] else acc) acc =
        acc ++ ((l.map fun x => x.drop d.length).filter test).map p.append := by
    intro l
    induction l with
    | nil => simp
    | cons x l ih =>
      intro acc
      rw [List.foldl_cons, ih, List.map_cons, List.filter_cons]
      split <;> simp
  unfold Action.below
  refine Ensures.get_bind fun s => Ensures.of_each fun t ht => ?_
  obtain ⟨rfl, ht⟩ := ht
  rw [(hP t ht).2]
  refine hfold.mono (fun u hu => hu ▸ ht) (fun ps u hu => ⟨hu.1, ?_⟩) fun _ _ hu => hu
  rw [hu.2, hfilter, List.nil_append]
  rfl

end Action

namespace Archive

open Session

/-- The name of what is at some names below the directory that is archived. -/
def nameBelow (top : Option Path) (rel : List String) : Path :=
  match top with
  | some name => name.join ⟨.relative, rel⟩
  | none => ⟨.relative, rel⟩

theorem nameBelow_nil (name : Path) : nameBelow (some name) [] = name := Path.append_nil name

/-- The entry for a node under a name. -/
def entryOf (format : Format) (name : Path) (node : Node) : Except Failure Entry :=
  match format with
  | .zip =>
    match zipName? name with
    | none => .error .emptyEntryName
    | some text => .ok ⟨if node = .directory then text ++ "/" else text, node⟩
  | .tar => .ok ⟨tarName name, node⟩

/-- Whether two paths from a directory are the same by name. -/
def areSameName (dir : Location) (p q : Path) : Bool := (dir.path.join p).normal == (dir.path.join q).normal

/-- What is in a directory is not the same by name as what is elsewhere by name. -/
theorem areSameName_of_below {dir k x : Location} {q : Path} (hk : k <+: x) (hx : ∀ c ∈ x, c ≠ "..")
    (hq : ¬ k <+: (dir.path.join q).normal.parts) : areSameName dir (Location.path x) q = false := by
  have hnormal : (dir.path.join (Location.path x)).normal = Location.path x := Path.normal_of_plain hx
  unfold areSameName
  rw [hnormal, beq_eq_false_iff_ne]
  intro he
  rw [← he] at hq
  exact hq hk

/-- The entries for what is at some names behind a path. -/
def entriesAt (format : Format) (dir : Location) (draft source : Path) (top : Option Path) (content : Handout.Content)
    (rel : List String) : Except Failure (List Entry) :=
  if format = .tar ∧ areSameName dir (source.append rel) draft then .ok []
  else
    match content rel with
    | none => .error (refuse .noEntry (source.append rel).written)
    | some node => (entryOf format (nameBelow top rel) node).map fun e => [e]

/-- The names below the directory for which there are entries: its own, if there is a top-level directory, and all
below. -/
def withTop (top : Option Path) (rels : List (List String)) : List (List String) :=
  if top.isSome then [] :: rels else rels

theorem mem_of_mem_withTop {rels : List (List String)} (h : rel ∈ withTop top rels) : rel ∈ [] :: rels := by
  unfold withTop at h
  split at h
  · exact h
  · exact List.mem_cons_of_mem _ h

theorem mem_withTop_of_mem {rels : List (List String)} (h : rel ∈ rels) : rel ∈ withTop top rels := by
  unfold withTop
  split
  · exact List.mem_cons_of_mem _ h
  · exact h

variable (top format) in
private theorem perform_entriesFor (h : s.Reaches (p.append rel) (d ++ rel)) (draft : Path)
    (hn : s.files.get? (d ++ rel) ≠ none) :
    (entriesFor format draft (p.append rel) (nameBelow top rel)).perform s =
      (entriesAt format s.workingDir draft p top (s.files.content d) rel, s) := by
  have hlocate := fun follow => perform_locate (w := (p.append rel).written) h rfl follow
  obtain ⟨node, hnode⟩ := Option.ne_none_iff_exists'.1 hn
  rw [hnode] at hlocate
  unfold entriesFor entriesAt Files.content
  rw [hnode]
  cases format with
  | zip =>
    unfold zipEntry entryOf
    rw [if_neg (by simp), perform_bind, perform_bind_ok (hlocate true)]
    dsimp only
    cases zipName? (nameBelow top rel) <;> rfl
  | tar =>
    have hsame : (isSameName (p.append rel) draft).perform s =
        (.ok (areSameName s.workingDir (p.append rel) draft), s) := rfl
    unfold tarEntry entryOf
    rw [perform_bind_ok hsame]
    by_cases hskip : areSameName s.workingDir (p.append rel) draft = true
    · rw [if_pos hskip, if_pos ⟨rfl, hskip⟩]
      rfl
    · rw [if_neg hskip, if_neg fun h => hskip h.2, perform_bind, perform_bind_ok (hlocate false)]
      rfl

/-- The entries for paths below a directory depend on what is stored there. -/
theorem perform_entries (draft : Path) {rels : List (List String)}
    (h : ∀ rel ∈ [] :: rels, s.Reaches (p.append rel) (d ++ rel) ∧ s.files.get? (d ++ rel) ≠ none) :
    (entries format draft p top (rels.map p.append)).perform s =
      (((withTop top rels).mapM (entriesAt format s.workingDir draft p top (s.files.content d))).map List.flatten, s) := by
  have hrest : ((rels.map p.append).mapM (entriesBelow format draft p top)).perform s =
      (rels.mapM (entriesAt format s.workingDir draft p top (s.files.content d)), s) := by
    rw [List.mapM_map]
    refine perform_mapM fun rel hrel => ?_
    have hrelative : (p.append rel).relativeTo? p = some ⟨.relative, rel⟩ := by
      unfold Path.relativeTo? Path.append
      rw [if_pos ⟨rfl, List.isPrefixOf_iff_prefix.2 (List.prefix_append _ _)⟩, List.drop_left]
    unfold entriesBelow
    dsimp only [Function.comp_apply]
    rw [hrelative]
    obtain ⟨hreaches, hn⟩ := h rel (List.mem_cons_of_mem _ hrel)
    exact perform_entriesFor top format hreaches draft hn
  unfold entries
  cases top with
  | none =>
    rw [perform_bind_ok (perform_pure _ s)]
    unfold withTop
    rw [Option.isSome_none, if_neg Bool.false_ne_true]
    cases hresult : rels.mapM (entriesAt format s.workingDir draft p none (s.files.content d)) with
    | error e => exact perform_bind_error (hresult ▸ hrest) _
    | ok rest => exact perform_bind_ok (hresult ▸ hrest) _
  | some name =>
    obtain ⟨hreaches, hn⟩ := h [] (List.mem_cons_self ..)
    have hfirst := perform_entriesFor (some name) format hreaches draft hn
    rw [nameBelow_nil, Path.append_nil] at hfirst
    unfold withTop
    rw [Option.isSome_some, if_pos rfl, List.mapM_cons, perform_bind, hfirst]
    cases entriesAt format s.workingDir draft p (some name) (s.files.content d) [] with
    | error e => rfl
    | ok first =>
      cases hresult : rels.mapM (entriesAt format s.workingDir draft p (some name) (s.files.content d)) with
      | error e => exact perform_bind_error (hresult ▸ hrest) _
      | ok rest => exact perform_bind_ok (hresult ▸ hrest) _

/-- One entry for each list of names, in order. -/
def Lists (format : Format) (top : Option Path) (content : Handout.Content) (rels : List (List String))
    (es : List Entry) : Prop :=
  List.Forall₂ (fun rel e => ∃ node, content rel = some node ∧ entryOf format (nameBelow top rel) node = .ok e) rels es

/-- An archive that does not hold its own draft has one entry for everything. -/
theorem lists_of_mapM {dir : Location} {draft source : Path} {content : Handout.Content} {rels : List (List String)}
    {ess : List (List Entry)}
    (hdraft : format = .tar → ∀ rel ∈ rels, areSameName dir (source.append rel) draft = false)
    (h : rels.mapM (entriesAt format dir draft source top content) = .ok ess) : Lists format top content rels ess.flatten := by
  induction rels generalizing ess with
  | nil =>
    cases h
    exact .nil
  | cons rel rels ih =>
    rw [List.mapM_cons] at h
    obtain ⟨es, hes, h⟩ := ok_of_bind h
    obtain ⟨ess', hess, h⟩ := ok_of_bind h
    cases h
    have hrest := ih (fun ht x hx => hdraft ht x (List.mem_cons_of_mem _ hx)) hess
    have hkeep : ¬ (format = .tar ∧ areSameName dir (source.append rel) draft = true) := by
      rintro ⟨ht, hsame⟩
      rw [hdraft ht rel (List.mem_cons_self ..)] at hsame
      cases hsame
    unfold entriesAt at hes
    rw [if_neg hkeep] at hes
    split at hes
    · cases hes
    · rename_i node hnode
      cases he : entryOf format (nameBelow top rel) node with
      | error e =>
        rw [he] at hes
        cases hes
      | ok e =>
        rw [he] at hes
        cases hes
        exact .cons ⟨node, hnode, he⟩ hrest

end Archive

end Handout
