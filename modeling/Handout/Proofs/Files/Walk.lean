import Handout.Proofs.Files.Basic

/-!
# Where paths lead

`Files.Arrives` tells how a walk that succeeds goes, with a case for each kind of step (`walk_eq_ok`); what holds of
such walks is shown by induction on it.  `Files.Leads f dir pieces n d` is the meaning of a path that leads to a
directory: from `dir` the pieces lead to `d`, and `n` links are followed on the way.  It does not speak of bounds, it is
unique (`Leads.unique`), it can be cut at any piece (`leads_append`), and it stays true when directories and links are
added.  `Files.walk` follows it exactly (`walk_of_leads`, `leads_of_walk`).  Behind a directory, names that meet no link
are found by name alone (`walk_plain`).
-/

namespace Handout.Files

variable {f g : Files} {dir d d' : Location} {c target : String} {pieces rest qs : List String} {n k m : Nat}
  {follow : Bool}

/-- The directory from which a link in a directory is followed. -/
def linkStart (dir : Location) (target : String) : Location :=
  if Path.anchorOf target = .relative then dir else []

/-- How a walk goes on at a link, when so many links may still be followed. -/
def again (f : Files) (follow : Bool) : Nat → Location → List String → Except SystemCode Place
  | 0 => fun _ _ => .error .linkLoop
  | links + 1 => walk f follow links

theorem walk_eq (f : Files) (follow : Bool) (n : Nat) : walk f follow n = walkWith f follow (again f follow n) := by
  cases n <;> rfl

/-! ### The steps of a walk -/

@[simp] theorem walk_nil : walk f follow n dir [] = .ok ⟨dir, some .directory⟩ := by
  rw [walk_eq]
  rfl

theorem walk_stay (h : isStay c = true) : walk f follow n dir (c :: rest) = walk f follow n dir rest := by
  rw [walk_eq, walkWith, if_pos h]

theorem walk_up : walk f follow n dir (".." :: rest) = walk f follow n dir.dropLast rest := by
  have h : ¬ isStay ".." = true := by decide
  rw [walk_eq, walkWith, if_neg h, if_pos rfl]

theorem walk_long (hc : IsPlain c) (hs : maxName < c.utf8ByteSize) :
    walk f follow n dir (c :: rest) = .error .nameTooLong := by
  rw [walk_eq, walkWith, if_neg (by simp [hc.1]), if_neg hc.2, if_pos hs]

/-- A name of permitted length leads to what is stored under it. -/
theorem walk_name (hc : IsPlain c) (hs : c.utf8ByteSize ≤ maxName) :
    walk f follow n dir (c :: rest) = match f.get? (dir ++ [c]) with
      | none => if rest.isEmpty then .ok ⟨dir ++ [c], none⟩ else .error .noEntry
      | some .directory => walk f follow n (dir ++ [c]) rest
      | some (.file data executable) =>
        if rest.isEmpty then .ok ⟨dir ++ [c], some (.file data executable)⟩ else .error .notDirectory
      | some (.link target) =>
        if rest.isEmpty && !follow then .ok ⟨dir ++ [c], some (.link target)⟩
        else again f follow n (linkStart dir target) (Path.pieces target ++ rest) := by
  rw [walk_eq, walkWith, if_neg (by simp [hc.1]), if_neg hc.2, if_neg (by omega)]
  rfl

/-! ### Walks that end -/

/-- From a directory, pieces of a path lead to a place by way of at most so many links.  A link in the last place is
followed if this is asked for. -/
inductive Arrives (f : Files) (follow : Bool) : Nat → Location → List String → Place → Prop
  | here (n : Nat) (dir : Location) : Arrives f follow n dir [] ⟨dir, some .directory⟩
  | stay {n : Nat} {dir : Location} {c : String} {rest : List String} {place : Place} (hc : isStay c = true)
      (h : Arrives f follow n dir rest place) : Arrives f follow n dir (c :: rest) place
  | up {n : Nat} {dir : Location} {rest : List String} {place : Place} (h : Arrives f follow n dir.dropLast rest place) :
      Arrives f follow n dir (".." :: rest) place
  | entry {n : Nat} {dir : Location} {c : String} (hc : IsPlain c) (hs : c.utf8ByteSize ≤ maxName)
      (hd : f.get? (dir ++ [c]) ≠ some .directory)
      (hl : follow = true → ∀ target, f.get? (dir ++ [c]) ≠ some (.link target)) :
      Arrives f follow n dir [c] ⟨dir ++ [c], f.get? (dir ++ [c])⟩
  | down {n : Nat} {dir : Location} {c : String} {rest : List String} {place : Place} (hc : IsPlain c)
      (hs : c.utf8ByteSize ≤ maxName) (hn : f.get? (dir ++ [c]) = some .directory)
      (h : Arrives f follow n (dir ++ [c]) rest place) : Arrives f follow n dir (c :: rest) place
  | link {n : Nat} {dir : Location} {c target : String} {rest : List String} {place : Place} (hc : IsPlain c)
      (hs : c.utf8ByteSize ≤ maxName) (hn : f.get? (dir ++ [c]) = some (.link target)) (hm : rest ≠ [] ∨ follow = true)
      (h : Arrives f follow n (linkStart dir target) (Path.pieces target ++ rest) place) :
      Arrives f follow (n + 1) dir (c :: rest) place

private theorem arrives_of_walk {place : Place} (h : walk f follow n dir pieces = .ok place) :
    Arrives f follow n dir pieces place := by
  -- a link is followed with one link fewer, and the pieces before it are taken one by one
  induction n using Nat.strongRecOn generalizing dir pieces with
  | _ n ih =>
    induction pieces generalizing dir with
    | nil =>
      rw [walk_nil] at h
      cases h
      exact .here n dir
    | cons c rest ihr =>
      by_cases hstay : isStay c = true
      · rw [walk_stay hstay] at h
        exact .stay hstay (ihr h)
      by_cases hup : c = ".."
      · subst hup
        rw [walk_up] at h
        exact .up (ihr h)
      have hc : IsPlain c := ⟨by simpa using hstay, hup⟩
      by_cases hlong : maxName < c.utf8ByteSize
      · rw [walk_long hc hlong] at h
        cases h
      have hs : c.utf8ByteSize ≤ maxName := by omega
      rw [walk_name hc hs] at h
      have hentry : rest = [] → f.get? (dir ++ [c]) ≠ some .directory →
          (follow = true → ∀ target, f.get? (dir ++ [c]) ≠ some (.link target)) →
          place = ⟨dir ++ [c], f.get? (dir ++ [c])⟩ → Arrives f follow n dir (c :: rest) place := by
        rintro rfl hd hl rfl
        exact .entry hc hs hd hl
      cases hn : f.get? (dir ++ [c]) with
      | none =>
        rw [hn] at h hentry
        dsimp only at h
        split at h <;> cases h
        exact hentry (List.isEmpty_iff.1 ‹_›) nofun (fun _ => nofun) rfl
      | some node =>
        rw [hn] at h hentry
        cases node with
        | directory => exact .down hc hs hn (ihr h)
        | file data executable =>
          dsimp only at h
          split at h <;> cases h
          exact hentry (List.isEmpty_iff.1 ‹_›) nofun (fun _ => nofun) rfl
        | link target =>
          dsimp only at h
          split at h
          · rename_i hlast
            rw [Bool.and_eq_true, List.isEmpty_iff, Bool.not_eq_true'] at hlast
            cases h
            exact hentry hlast.1 nofun (fun hfollow => absurd (hlast.2.symm.trans hfollow) nofun) rfl
          · rename_i hmore
            cases n with
            | zero => cases h
            | succ n => exact .link hc hs hn (by simpa [or_iff_not_imp_left] using hmore) (ih n (Nat.lt_succ_self n) h)

private theorem walk_of_arrives {place : Place} (h : Arrives f follow n dir pieces place) :
    walk f follow n dir pieces = .ok place := by
  induction h with
  | here n dir => exact walk_nil
  | stay hc _ ih => rwa [walk_stay hc]
  | up _ ih => rwa [walk_up]
  | @entry n dir c hc hs hd hl =>
    rw [walk_name hc hs]
    cases hn : f.get? (dir ++ [c]) with
    | none => rfl
    | some node =>
      cases node with
      | directory => exact absurd hn hd
      | file data executable => rfl
      | link target =>
        cases hfollow : follow with
        | false => rfl
        | true => exact absurd hn (hl hfollow target)
  | down hc hs hn _ ih => rwa [walk_name hc hs, hn]
  | link hc hs hn hm _ ih =>
    rw [walk_name hc hs, hn]
    dsimp only
    rwa [if_neg (by simpa [or_iff_not_imp_left] using hm)]

/-- A walk that succeeds arrives where it ends. -/
theorem walk_eq_ok {place : Place} : walk f follow n dir pieces = .ok place ↔ Arrives f follow n dir pieces place :=
  ⟨arrives_of_walk, walk_of_arrives⟩

/-! ### Paths that lead to directories -/

/-- From a directory, pieces of a path lead to a directory by way of so many links. -/
inductive Leads (f : Files) : Location → List String → Nat → Location → Prop
  | here (dir : Location) : Leads f dir [] 0 dir
  | stay {dir d : Location} {c : String} {rest : List String} {n : Nat} (hc : isStay c = true)
      (h : Leads f dir rest n d) : Leads f dir (c :: rest) n d
  | up {dir d : Location} {rest : List String} {n : Nat} (h : Leads f dir.dropLast rest n d) :
      Leads f dir (".." :: rest) n d
  | down {dir d : Location} {c : String} {rest : List String} {n : Nat} (hc : IsPlain c)
      (hs : c.utf8ByteSize ≤ maxName) (hn : f.get? (dir ++ [c]) = some .directory)
      (h : Leads f (dir ++ [c]) rest n d) : Leads f dir (c :: rest) n d
  | link {dir d : Location} {c target : String} {rest : List String} {n : Nat} (hc : IsPlain c)
      (hs : c.utf8ByteSize ≤ maxName) (hn : f.get? (dir ++ [c]) = some (.link target))
      (h : Leads f (linkStart dir target) (Path.pieces target ++ rest) n d) : Leads f dir (c :: rest) (n + 1) d

theorem not_isPlain_of_stay (h : isStay c = true) : ¬ IsPlain c := by
  intro hc
  rw [hc.1] at h
  cases h

theorem not_isPlain_up : ¬ IsPlain ".." := fun h => h.2 rfl

theorem Leads.unique (h : Leads f dir pieces n d) : ∀ {m e}, Leads f dir pieces m e → n = m ∧ d = e := by
  induction h with
  | here =>
    intro m e h'
    cases h'
    exact ⟨rfl, rfl⟩
  | stay hc _ ih =>
    intro m e h'
    cases h' with
    | stay _ h' => exact ih h'
    | up h' => exact absurd hc (by decide)
    | down hc' => exact absurd hc' (not_isPlain_of_stay hc)
    | link hc' => exact absurd hc' (not_isPlain_of_stay hc)
  | up _ ih =>
    intro m e h'
    cases h' with
    | stay hc' h' => exact absurd hc' (by decide)
    | up h' => exact ih h'
    | down hc' => exact absurd hc' not_isPlain_up
    | link hc' => exact absurd hc' not_isPlain_up
  | down hc _ hn _ ih =>
    intro m e h'
    cases h' with
    | stay hc' h' => exact absurd hc (not_isPlain_of_stay hc')
    | up h' => exact absurd hc not_isPlain_up
    | down _ _ _ h' => exact ih h'
    | link _ _ hn' =>
      rw [hn] at hn'
      cases hn'
  | link hc _ hn _ ih =>
    intro m e h'
    cases h' with
    | stay hc' h' => exact absurd hc (not_isPlain_of_stay hc')
    | up h' => exact absurd hc not_isPlain_up
    | down _ _ hn' =>
      rw [hn] at hn'
      cases hn'
    | link _ _ hn' h' =>
      rw [hn] at hn'
      cases hn'
      obtain ⟨hk, hd⟩ := ih h'
      exact ⟨by rw [hk], hd⟩

/-- A path leads first to where it starts. -/
private theorem leads_split_nil (hps : [] ++ rest = pieces) (h : Leads f dir pieces n d) :
    ∃ m k l, Leads f dir [] k m ∧ Leads f m rest l d ∧ n = k + l := by
  rw [← hps, List.nil_append] at h
  exact ⟨dir, 0, n, .here dir, h, (Nat.zero_add n).symm⟩

/-- A path through a directory leads there first. -/
theorem leads_append : Leads f dir (pieces ++ rest) n d ↔
    ∃ m k l, Leads f dir pieces k m ∧ Leads f m rest l d ∧ n = k + l := by
  constructor
  · intro h
    generalize hps : pieces ++ rest = ps at h
    induction h generalizing pieces with
    | here =>
      obtain ⟨rfl, rfl⟩ := List.append_eq_nil_iff.1 hps
      exact ⟨_, 0, 0, .here _, .here _, rfl⟩
    | @stay dir d c r n hc h ih =>
      cases pieces with
      | nil => exact leads_split_nil hps (.stay hc h)
      | cons p ps =>
        obtain ⟨rfl, rfl⟩ := List.cons_eq_cons.1 hps
        obtain ⟨m, k, l, h1, h2, hn⟩ := ih rfl
        exact ⟨m, k, l, .stay hc h1, h2, hn⟩
    | @up dir d r n h ih =>
      cases pieces with
      | nil => exact leads_split_nil hps (.up h)
      | cons p ps =>
        obtain ⟨rfl, rfl⟩ := List.cons_eq_cons.1 hps
        obtain ⟨m, k, l, h1, h2, hn⟩ := ih rfl
        exact ⟨m, k, l, .up h1, h2, hn⟩
    | @down dir d c r n hc hs hn h ih =>
      cases pieces with
      | nil => exact leads_split_nil hps (.down hc hs hn h)
      | cons p ps =>
        obtain ⟨rfl, rfl⟩ := List.cons_eq_cons.1 hps
        obtain ⟨m, k, l, h1, h2, hn'⟩ := ih rfl
        exact ⟨m, k, l, .down hc hs hn h1, h2, hn'⟩
    | @link dir d c target r n hc hs hn h ih =>
      cases pieces with
      | nil => exact leads_split_nil hps (.link hc hs hn h)
      | cons p ps =>
        obtain ⟨rfl, rfl⟩ := List.cons_eq_cons.1 hps
        obtain ⟨m, k, l, h1, h2, hn'⟩ := ih (List.append_assoc _ _ _)
        exact ⟨m, k + 1, l, .link hc hs hn h1, h2, by omega⟩
  · rintro ⟨m, k, l, h1, h2, rfl⟩
    induction h1 with
    | here => rwa [List.nil_append, Nat.zero_add]
    | stay hc _ ih => exact .stay hc (ih h2)
    | up _ ih => exact .up (ih h2)
    | down hc hs hn _ ih => exact .down hc hs hn (ih h2)
    | @link dir d c target r n hc hs hn _ ih =>
      rw [Nat.add_right_comm]
      have h := ih h2
      rw [List.append_assoc] at h
      exact .link hc hs hn h

/-- A path that leads to a directory leads there as long as no directory and no link is taken away. -/
theorem Leads.mono (h : Leads f dir pieces n d)
    (hdir : ∀ x, f.get? x = some .directory → g.get? x = some .directory)
    (hlink : ∀ x target, f.get? x = some (.link target) → g.get? x = some (.link target)) :
    Leads g dir pieces n d := by
  induction h with
  | here => exact .here _
  | stay hc _ ih => exact .stay hc ih
  | up _ ih => exact .up ih
  | down hc hs hn _ ih => exact .down hc hs (hdir _ hn) ih
  | link hc hs hn _ ih => exact .link hc hs (hlink _ _ hn) ih

theorem WellFormed.get?_dropLast (hf : f.WellFormed) (h : f.get? dir = some .directory) :
    f.get? dir.dropLast = some .directory := by
  rcases List.eq_nil_or_concat' dir with rfl | ⟨init, last, rfl⟩
  · rfl
  · rw [List.dropLast_concat]
    exact hf.parent (by rw [h]; exact Option.some_ne_none _)

private theorem get?_linkStart (h : f.get? dir = some .directory) :
    f.get? (linkStart dir target) = some .directory := by
  unfold linkStart
  split
  · exact h
  · rfl

theorem Leads.directory (h : Leads f dir pieces n d) (hf : f.WellFormed) (hd : f.get? dir = some .directory) :
    f.get? d = some .directory := by
  induction h with
  | here => exact hd
  | stay _ _ ih => exact ih hd
  | up _ ih => exact ih (hf.get?_dropLast hd)
  | down _ _ hn _ ih => exact ih hn
  | link _ _ _ _ ih => exact ih (get?_linkStart hd)

/-- Pieces that lead to a directory have no zero. -/
theorem Leads.noZero (h : Leads f dir pieces n d) (hf : f.WellFormed) : ∀ x ∈ pieces, Char.ofNat 0 ∉ x.toList := by
  have hstored : ∀ {dir : Location} {c : String} {node : Node}, f.get? (dir ++ [c]) = some node →
      Char.ofNat 0 ∉ c.toList := fun hn => (hf.proper (by rw [hn]; exact Option.some_ne_none _)).noZero
  induction h with
  | here => exact fun x hx => absurd hx List.not_mem_nil
  | @stay dir d c rest n hc h ih =>
    rintro x (_ | ⟨_, hx⟩)
    · simp only [isStay, Bool.or_eq_true, beq_iff_eq] at hc
      rcases hc with rfl | rfl <;> decide
    · exact ih x hx
  | up h ih =>
    rintro x (_ | ⟨_, hx⟩)
    · decide
    · exact ih x hx
  | down hc hs hn h ih =>
    rintro x (_ | ⟨_, hx⟩)
    · exact hstored hn
    · exact ih x hx
  | link hc hs hn h ih =>
    rintro x (_ | ⟨_, hx⟩)
    · exact hstored hn
    · exact ih x (List.mem_append_right _ hx)

/-- Behind pieces that lead to a directory a walk goes on from there. -/
theorem walk_of_leads (h : Leads f dir pieces k d) (hk : k ≤ n) (hq : qs ≠ [] ∨ follow = true) :
    walk f follow n dir (pieces ++ qs) = walk f follow (n - k) d qs := by
  induction h generalizing n with
  | here => rfl
  | stay hc _ ih => rw [List.cons_append, walk_stay hc, ih hk]
  | up _ ih => rw [List.cons_append, walk_up, ih hk]
  | down hc hs hn _ ih => rw [List.cons_append, walk_name hc hs, hn, ih hk]
  | @link dir d c target r k hc hs hn _ ih =>
    obtain ⟨n, rfl⟩ : ∃ n', n = n' + 1 := ⟨n - 1, by omega⟩
    have hlast : ((r ++ qs).isEmpty && !follow) = false := by
      rcases hq with hq | hq
      · simp [hq]
      · simp [hq]
    rw [List.cons_append, walk_name hc hs, hn]
    simp only [hlast, Bool.false_eq_true, if_false]
    rw [← List.append_assoc]
    show walk f follow n _ _ = _
    rw [ih (by omega), Nat.add_sub_add_right]

/-- A walk goes through directories only, up to where it ends. -/
theorem leads_of_walk_append {place : Place} (h : walk f follow n dir (pieces ++ rest) = .ok place)
    (hr : rest ≠ [] ∨ follow = true ∧ place.node = some .directory) : ∃ k ≤ n, ∃ d, Leads f dir pieces k d := by
  rw [walk_eq_ok] at h
  generalize hps : pieces ++ rest = ps at h
  induction h generalizing pieces with
  | here n dir =>
    obtain ⟨rfl, -⟩ := List.append_eq_nil_iff.1 hps
    exact ⟨0, Nat.zero_le _, dir, .here dir⟩
  | @stay n dir c r place hc _ ih =>
    cases pieces with
    | nil => exact ⟨0, Nat.zero_le _, dir, .here dir⟩
    | cons x xs =>
      obtain ⟨rfl, rfl⟩ := List.cons_eq_cons.1 hps
      obtain ⟨k, hk, d, hl⟩ := ih hr rfl
      exact ⟨k, hk, d, .stay hc hl⟩
  | @up n dir r place _ ih =>
    cases pieces with
    | nil => exact ⟨0, Nat.zero_le _, dir, .here dir⟩
    | cons x xs =>
      obtain ⟨rfl, rfl⟩ := List.cons_eq_cons.1 hps
      obtain ⟨k, hk, d, hl⟩ := ih hr rfl
      exact ⟨k, hk, d, .up hl⟩
  | @entry n dir c hc hs hd _ =>
    cases pieces with
    | nil => exact ⟨0, Nat.zero_le _, dir, .here dir⟩
    | cons x xs =>
      -- the walk ends here, and not in a directory
      obtain ⟨-, hnil⟩ := List.cons_eq_cons.1 hps
      rcases hr with hr | hr
      · exact absurd (List.append_eq_nil_iff.1 hnil).2 hr
      · exact absurd hr.2 hd
  | @down n dir c r place hc hs hn _ ih =>
    cases pieces with
    | nil => exact ⟨0, Nat.zero_le _, dir, .here dir⟩
    | cons x xs =>
      obtain ⟨rfl, rfl⟩ := List.cons_eq_cons.1 hps
      obtain ⟨k, hk, d, hl⟩ := ih hr rfl
      exact ⟨k, hk, d, .down hc hs hn hl⟩
  | @link n dir c target r place hc hs hn _ _ ih =>
    cases pieces with
    | nil => exact ⟨0, Nat.zero_le _, dir, .here dir⟩
    | cons x xs =>
      obtain ⟨rfl, rfl⟩ := List.cons_eq_cons.1 hps
      obtain ⟨k, hk, d, hl⟩ := ih hr (List.append_assoc _ _ _)
      exact ⟨k + 1, Nat.succ_le_succ hk, d, .link hc hs hn hl⟩

/-- A walk that ends in a directory follows a path that leads there. -/
theorem leads_of_walk (h : walk f true n dir pieces = .ok ⟨d, some .directory⟩) : ∃ k ≤ n, Leads f dir pieces k d := by
  rw [← List.append_nil pieces] at h
  obtain ⟨k, hk, e, hl⟩ := leads_of_walk_append h (.inr ⟨rfl, rfl⟩)
  rw [walk_of_leads hl hk (.inr rfl), walk_nil] at h
  cases h
  exact ⟨k, hk, hl⟩

/-- What leads to a directory leads to something also if a last link is not followed. -/
theorem walk_exists_of_leads (follow : Bool) (h : Leads f dir pieces k d) (hk : k ≤ n) :
    ∃ loc node, walk f follow n dir pieces = .ok ⟨loc, some node⟩ := by
  induction h generalizing n with
  | here dir => exact ⟨dir, _, walk_nil⟩
  | stay hc _ ih =>
    rw [walk_stay hc]
    exact ih hk
  | up _ ih =>
    rw [walk_up]
    exact ih hk
  | down hc hs hn _ ih =>
    rw [walk_name hc hs, hn]
    exact ih hk
  | @link dir d c target r k hc hs hn _ ih =>
    obtain ⟨n, rfl⟩ : ∃ n', n = n' + 1 := ⟨n - 1, by omega⟩
    rw [walk_name hc hs, hn]
    by_cases hlast : (r.isEmpty && !follow) = true
    · exact ⟨dir ++ [c], .link target, if_pos hlast⟩
    · obtain ⟨loc, node, h⟩ := ih (n := n) (by omega)
      exact ⟨loc, node, (if_neg hlast).trans h⟩

/-! ### Where walks end -/

/-- A place that is known to be in a directory, and where something may be stored unless it is a directory. -/
def IsSound (f : Files) (place : Place) : Prop :=
  place.node = f.get? place.location ∧ (place.node ≠ some .directory → ∃ d c, place.location = d ++ [c] ∧
    f.get? d = some .directory ∧ IsPlain c ∧ c.utf8ByteSize ≤ maxName)

/-- A walk tells what is stored where it ends. -/
theorem walk_isSound {place : Place} (hf : f.WellFormed) (hd : f.get? dir = some .directory)
    (h : walk f follow n dir pieces = .ok place) : IsSound f place := by
  rw [walk_eq_ok] at h
  induction h with
  | here n dir => exact ⟨hd.symm, fun hn => absurd rfl hn⟩
  | stay _ _ ih => exact ih hd
  | up _ ih => exact ih (hf.get?_dropLast hd)
  | @entry n dir c hc hs _ _ => exact ⟨rfl, fun _ => ⟨dir, c, rfl, hd, hc, hs⟩⟩
  | down _ _ hn _ ih => exact ih hn
  | link _ _ _ _ _ ih => exact ih (get?_linkStart hd)

/-- A walk that does not end in a directory ends at an entry of one. -/
theorem walk_leaf {place : Place} (h : walk f follow n dir pieces = .ok place) (hn : place.node ≠ some .directory) :
    ∃ d c, place.location = d ++ [c] ∧ place.node = f.get? (d ++ [c]) := by
  rw [walk_eq_ok] at h
  induction h with
  | here => exact absurd rfl hn
  | @entry n dir c => exact ⟨dir, c, rfl, rfl⟩
  | stay _ _ ih | up _ ih | down _ _ _ _ ih | link _ _ _ _ _ ih => exact ih hn

/-- What a walk finds is found as well if the directories and links are kept, and so is what is found. -/
theorem walk_keep {place : Place} (hdir : ∀ x, f.get? x = some .directory → g.get? x = some .directory)
    (hlink : ∀ x target, f.get? x = some (.link target) → g.get? x = some (.link target))
    (hend : g.get? place.location = f.get? place.location) (h : walk f follow n dir pieces = .ok place)
    (hn : place.node ≠ none) : walk g follow n dir pieces = .ok place := by
  rw [walk_eq_ok] at h ⊢
  induction h with
  | here n dir => exact .here n dir
  | stay hc _ ih => exact .stay hc (ih hend hn)
  | up _ ih => exact .up (ih hend hn)
  | @entry n dir c hc hs hd hl =>
    have hkept : g.get? (dir ++ [c]) = f.get? (dir ++ [c]) := hend
    rw [← hkept] at hd hl ⊢
    exact .entry hc hs hd hl
  | down hc hs hd _ ih => exact .down hc hs (hdir _ hd) (ih hend hn)
  | link hc hs hl hm _ ih => exact .link hc hs (hlink _ _ hl) hm (ih hend hn)

/-! ### Walks by name alone -/

/-- No link is met on the way from a directory by some names, nor where they end. -/
def Clear (f : Files) (dir : Location) (names : List String) : Prop :=
  ∀ first target, first ≠ [] → first <+: names → f.get? (dir ++ first) ≠ some (.link target)

/-- The way to what is stored meets no link but perhaps at its end. -/
theorem WellFormed.clear (hf : f.WellFormed) {names : List String} (hn : f.get? (dir ++ names) ≠ none)
    (hl : ∀ target, f.get? (dir ++ names) ≠ some (.link target)) : Clear f dir names := by
  rintro first target - ⟨rest, rfl⟩
  by_cases hr : rest = []
  · rw [hr, List.append_nil] at hl
    exact hl target
  · rw [← List.append_assoc] at hn
    rw [hf.ancestor hn hr]
    simp

/-- Names that meet no link lead by name alone, if they lead anywhere. -/
theorem walk_plain (hf : f.WellFormed) (hd : f.get? dir = some .directory) (hp : ∀ c ∈ pieces, IsPlain c)
    (hc : Clear f dir pieces) :
    walk f follow n dir pieces = .ok ⟨dir ++ pieces, f.get? (dir ++ pieces)⟩ ∨
      ∃ code, walk f follow n dir pieces = .error code ∧ f.get? (dir ++ pieces) = none ∧
        (code = .nameTooLong → ∃ c ∈ pieces, maxName < c.utf8ByteSize) := by
  induction pieces generalizing dir with
  | nil =>
    left
    rw [walk_nil, List.append_nil, hd]
  | cons c rest ih =>
    have hcp : IsPlain c := hp c (by simp)
    by_cases hs : maxName < c.utf8ByteSize
    · right
      refine ⟨_, walk_long hcp hs, ?_, fun _ => ⟨c, List.mem_cons_self .., hs⟩⟩
      by_contra hn
      have := (hf.proper_of_mem hn (List.mem_cons_self ..)).short
      omega
    rw [walk_name hcp (by omega)]
    have hbelow : f.get? (dir ++ [c]) ≠ some .directory → rest ≠ [] → f.get? (dir ++ c :: rest) = none := by
      intro hn hr
      have := hf.get?_below hn hr
      rwa [List.append_assoc, List.singleton_append] at this
    cases hn : f.get? (dir ++ [c]) with
    | none =>
      cases rest with
      | nil => exact .inl (by rw [hn]; rfl)
      | cons c' rest => exact .inr ⟨_, rfl, hbelow (by rw [hn]; nofun) (by simp), nofun⟩
    | some node =>
      cases node with
      | directory =>
        have hclear : Clear f (dir ++ [c]) rest := by
          intro first target hne hfirst
          rw [List.append_assoc]
          exact hc _ _ (by simp) ((List.prefix_cons_inj c).2 hfirst)
        have h := ih hn (fun x hx => hp x (List.mem_cons_of_mem _ hx)) hclear
        rw [List.append_assoc, List.singleton_append] at h
        rcases h with h | ⟨code, h, hnone, hlong⟩
        · exact .inl h
        · refine .inr ⟨code, h, hnone, fun hcode => ?_⟩
          obtain ⟨x, hx, hlong⟩ := hlong hcode
          exact ⟨x, List.mem_cons_of_mem _ hx, hlong⟩
      | file data executable =>
        cases rest with
        | nil => exact .inl (by rw [hn]; rfl)
        | cons c' rest => exact .inr ⟨_, rfl, hbelow (by rw [hn]; nofun) (by simp), nofun⟩
      | link target => exact absurd hn (hc [c] target (by simp) (by simp))

variable (n follow) in
/-- A walk by names ends early where there is nothing or a file in the place of a directory. -/
theorem walk_blocked (hp : ∀ c ∈ pieces, IsPlain c ∧ c.utf8ByteSize ≤ maxName) (hc : Clear f dir pieces)
    (hd : f.get? dir = some .directory) (hn : f.get? (dir ++ pieces) ≠ some .directory) (hr : rest ≠ []) :
    walk f follow n dir (pieces ++ rest) = .error .noEntry ∨
      walk f follow n dir (pieces ++ rest) = .error .notDirectory ∧
        ∃ first, first <+: pieces ∧ ∃ data executable, f.get? (dir ++ first) = some (.file data executable) := by
  induction pieces generalizing dir with
  | nil =>
    rw [List.append_nil] at hn
    exact absurd hd hn
  | cons c pieces ih =>
    obtain ⟨hplain, hshort⟩ := hp c (List.mem_cons_self ..)
    have hempty : (pieces ++ rest).isEmpty = false := by simp [hr]
    rw [List.cons_append, walk_name hplain hshort]
    cases hnode : f.get? (dir ++ [c]) with
    | none => simp [hempty]
    | some node =>
      cases node with
      | directory =>
        have hclear : Clear f (dir ++ [c]) pieces := by
          intro first target hne hfirst
          rw [List.append_assoc]
          exact hc _ target (by simp) ((List.prefix_cons_inj c).2 hfirst)
        rcases ih (fun x hx => hp x (List.mem_cons_of_mem _ hx)) hclear hnode (by simpa using hn) with h | ⟨h, first, hfirst, hfile⟩
        · exact .inl h
        · refine .inr ⟨h, c :: first, (List.prefix_cons_inj c).2 hfirst, ?_⟩
          rwa [List.append_assoc] at hfile
      | file data executable =>
        refine .inr ⟨?_, [c], (List.prefix_cons_inj c).2 (List.nil_prefix), data, executable, hnode⟩
        simp [hempty]
      | link target => exact absurd hnode (hc [c] target (by simp) ((List.prefix_cons_inj c).2 (List.nil_prefix)))

/-- Names that meet no link lead to the same in two file systems that agree on the way, however many links have been
followed before. -/
theorem walk_congr (hp : ∀ c ∈ pieces, IsPlain c) (hc : Clear f dir pieces)
    (hsame : ∀ first, first ≠ [] → first <+: pieces → f.get? (dir ++ first) = g.get? (dir ++ first)) :
    walk f follow n dir pieces = walk g follow m dir pieces := by
  induction pieces generalizing dir with
  | nil => rw [walk_nil, walk_nil]
  | cons c rest ih =>
    have hcp : IsPlain c := hp c (by simp)
    by_cases hs : maxName < c.utf8ByteSize
    · rw [walk_long hcp hs, walk_long hcp hs]
    have hs' : c.utf8ByteSize ≤ maxName := by omega
    have hrest : walk f follow n (dir ++ [c]) rest = walk g follow m (dir ++ [c]) rest := by
      refine ih (fun x hx => hp x (List.mem_cons_of_mem _ hx)) (fun first target hne hfirst => ?_)
        fun first hne hfirst => ?_
      · rw [List.append_assoc]
        exact hc _ target (by simp) ((List.prefix_cons_inj c).2 hfirst)
      · rw [List.append_assoc]
        exact hsame _ (by simp) ((List.prefix_cons_inj c).2 hfirst)
    have hfirst : f.get? (dir ++ [c]) = g.get? (dir ++ [c]) := hsame [c] (by simp) (by simp)
    rw [walk_name hcp hs', walk_name hcp hs', ← hfirst]
    cases hn : f.get? (dir ++ [c]) with
    | none => rfl
    | some node =>
      cases node with
      | directory => exact hrest
      | file data executable => rfl
      | link target => exact absurd hn (hc [c] target (by simp) (by simp))

/-- Names that meet no link lead to the place that they name. -/
theorem location_of_walk {place : Place} (hp : ∀ c ∈ pieces, IsPlain c) (hc : Clear f dir pieces)
    (h : walk f follow n dir pieces = .ok place) : place.location = dir ++ pieces := by
  induction pieces generalizing dir with
  | nil =>
    rw [walk_nil] at h
    cases h
    exact (List.append_nil dir).symm
  | cons c rest ih =>
    have hcp : IsPlain c := hp c (by simp)
    by_cases hs : maxName < c.utf8ByteSize
    · rw [walk_long hcp hs] at h
      cases h
    rw [walk_name hcp (by omega)] at h
    have hend : ∀ node, (if rest.isEmpty then Except.ok (ε := SystemCode) (Place.mk (dir ++ [c]) node) else
        .error .noEntry) = .ok place → place.location = dir ++ c :: rest := by
      intro node hnode
      split at hnode
      · rename_i hempty
        cases hnode
        rw [List.isEmpty_iff.1 hempty]
      · cases hnode
    split at h
    · exact hend _ h
    · rename_i hn
      have hclear : Clear f (dir ++ [c]) rest := by
        intro first target hne hfirst
        rw [List.append_assoc]
        exact hc _ target (by simp) ((List.prefix_cons_inj c).2 hfirst)
      rw [ih (fun x hx => hp x (List.mem_cons_of_mem _ hx)) hclear h, List.append_assoc]
      rfl
    · split at h
      · rename_i hempty
        cases h
        rw [List.isEmpty_iff.1 hempty]
      · cases h
    · rename_i target hn
      exact absurd hn (hc [c] target (by simp) ((List.prefix_cons_inj c).2 (List.nil_prefix)))

/-- Names that lead to a directory are not many: a directory lies no deeper than the height, and a link leads to any
depth. -/
theorem length_le_of_leads (hf : f.WellFormed) (hd : f.get? dir = some .directory) {names : List String}
    (hp : ∀ c ∈ names, IsPlain c) (h : Leads f dir names n d) : names.length ≤ n * (f.height + 1) + d.length := by
  induction names using List.reverseRecOn generalizing n d with
  | nil => exact Nat.zero_le _
  | append_singleton names c ih =>
    obtain ⟨m, k, l, hm, hc, rfl⟩ := leads_append.1 h
    have hmd := hm.directory hf hd
    have hdepth : m.length ≤ f.height := length_le_height (by rw [hmd]; exact Option.some_ne_none _)
    have hnames := ih (fun x hx => hp x (List.mem_append_left _ hx)) hm
    rw [List.length_append, List.length_singleton]
    cases hc with
    | stay hstay => exact absurd (hp c (by simp)) (not_isPlain_of_stay hstay)
    | up => exact absurd (hp ".." (by simp)) not_isPlain_up
    | down _ _ _ hrest =>
      cases hrest
      rw [List.length_append, List.length_singleton, show k + 0 = k from rfl]
      omega
    | @link _ _ _ _ _ l =>
      rw [← Nat.add_assoc, Nat.add_mul (k + l), Nat.add_mul k, Nat.one_mul]
      omega

end Handout.Files
