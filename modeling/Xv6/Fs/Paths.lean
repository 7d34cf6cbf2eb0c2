import Xv6.Fs.Crowded

/-!
# Path resolution

A path is its components (`comps`): the maximal runs of characters other than `/`, each cut to
`DIRSIZ`. `skipelem` takes them off one by one (`skipelem_none`, `skipelem_some`), so what `namex`
does depends on nothing else but whether the path begins with a slash.

* `Tree.follow`: the inode that a list of components leads to.
* `Tree.walk_name`, `Tree.walk_parent_eq`: the walk of `namex` in these terms.
* `Tree.JamsAlong`: along the components, there is no room for an inode in the table.
* `path_resolution`: `namei` and `nameiparent` return where the components lead, keeping a reference
  to that inode and to no other, unless the table of inodes overflows.
-/

namespace Xv6.Fs

open Lib

/-! ## Components -/

/-- The components of a path, a string without its terminating zero. -/
def comps (path : List UInt8) : List (List UInt8) :=
  ((path.splitOn slash).filter (· ≠ [])).map (·.take dirsiz)

theorem comps_nil : comps [] = [] := rfl

theorem comps_slash (path : List UInt8) : comps (slash :: path) = comps path := by
  unfold comps List.splitOn
  rw [List.splitOnP_cons_eq_if_modifyHead, if_pos (beq_self_eq_true slash)]
  rfl

/-- A path that is one component. -/
theorem comps_word {w : List UInt8} (hne : w ≠ []) (hw : ∀ c ∈ w, c ≠ slash) :
    comps w = [w.take dirsiz] := by
  unfold comps List.splitOn
  rw [List.splitOnP_eq_singleton fun c hc => beq_eq_false_iff_ne.2 (hw c hc)]
  simp [hne]

theorem comps_word_slash {w : List UInt8} (hne : w ≠ []) (hw : ∀ c ∈ w, c ≠ slash) (path : List UInt8) :
    comps (w ++ slash :: path) = w.take dirsiz :: comps path := by
  unfold comps List.splitOn
  rw [List.splitOnP_append_cons_of_forall_mem (fun c hc => beq_eq_false_iff_ne.2 (hw c hc)) slash
    (beq_self_eq_true slash)]
  simp [hne]

/-- Leading slashes do not matter. -/
theorem comps_dropWhile (path : List UInt8) : comps (path.dropWhile (· = slash)) = comps path := by
  induction path with
  | nil => rfl
  | cons c path ih =>
    by_cases hc : c = slash
    · rw [List.dropWhile_cons_of_pos (by simpa using hc), ih, hc, comps_slash]
    · rw [List.dropWhile_cons_of_neg (by simpa using hc)]

variable {path : List UInt8}

theorem head_dropWhile_ne (hne : path.dropWhile (· = slash) ≠ []) :
    (path.dropWhile (· = slash)).head hne ≠ slash := by
  simpa using List.head_dropWhile_not (fun c => decide (c = slash)) hne

/-- A path that does not begin with a slash begins with a component. -/
theorem comps_first {s : List UInt8} (hne : s ≠ []) (hc : s.head hne ≠ slash) :
    comps s = (s.takeWhile (· ≠ slash)).take dirsiz :: comps (s.dropWhile (· ≠ slash)) := by
  have happ : s.takeWhile (· ≠ slash) ++ s.dropWhile (· ≠ slash) = s := List.takeWhile_append_dropWhile
  have hword : ∀ c ∈ s.takeWhile (· ≠ slash), c ≠ slash := by
    intro c hc
    simpa using List.mem_takeWhile_imp hc
  have hne' : s.takeWhile (· ≠ slash) ≠ [] := by
    obtain ⟨c, cs, rfl⟩ := List.exists_cons_of_ne_nil hne
    rw [List.takeWhile_cons_of_pos (by simpa using hc)]
    exact nofun
  generalize s.takeWhile (· ≠ slash) = w at happ hword hne'
  cases hrest : s.dropWhile (· ≠ slash) with
  | nil =>
    rw [hrest, List.append_nil] at happ
    rw [← happ, comps_word hne' hword, comps_nil]
  | cons c path =>
    -- what stops the component is a slash
    have hslash : c = slash := by
      have h0 : s.dropWhile (· ≠ slash) ≠ [] := by
        rw [hrest]
        exact nofun
      have hhead : (s.dropWhile (· ≠ slash)).head h0 = c := by simp only [hrest, List.head_cons]
      have := List.head_dropWhile_not (fun c => decide (c ≠ slash)) h0
      rw [hhead] at this
      simpa using this
    rw [hrest, hslash] at happ
    rw [← happ, comps_word_slash hne' hword, hslash, comps_slash]

/-- **`skipelem`** finds nothing only if there is no component. -/
theorem skipelem_none (h : skipelem path = none) : comps path = [] := by
  unfold skipelem at h
  dsimp only at h
  split_ifs at h with hs
  rw [← comps_dropWhile, hs, comps_nil]

/-- **`skipelem`** takes the first component off; the rest of the path is empty exactly if there
are no others. -/
theorem skipelem_some {elem rest : List UInt8} (h : skipelem path = some (elem, rest)) :
    comps path = elem :: comps rest ∧ (rest = [] ↔ comps rest = []) := by
  unfold skipelem at h
  dsimp only at h
  split_ifs at h with hs
  obtain ⟨rfl, rfl⟩ := Prod.mk.inj (Option.some.inj h)
  have hfirst := comps_first hs (head_dropWhile_ne hs)
  rw [comps_dropWhile] at hfirst
  generalize path.dropWhile (· = slash) = s at hfirst ⊢
  have happ : s.takeWhile (· ≠ slash) ++ s.dropWhile (· ≠ slash) = s := List.takeWhile_append_dropWhile
  have htake := (congrArg (List.take (s.takeWhile (· ≠ slash)).length) happ).symm.trans List.take_left
  have hdrop := (congrArg (List.drop (s.takeWhile (· ≠ slash)).length) happ).symm.trans List.drop_left
  rw [htake, hdrop]
  refine ⟨by rw [hfirst, comps_dropWhile], fun h0 => by rw [h0, comps_nil], fun h0 => ?_⟩
  by_contra hr
  rw [comps_first hr (head_dropWhile_ne hr)] at h0
  exact absurd h0 nofun

/-! ## Where a path leads -/

namespace Tree

variable (T : Tree)

/-- The inode that the components lead to from `ip`: each is looked up in a directory. -/
def follow (ip : ℕ) : List (List UInt8) → Option ℕ
  | [] => some ip
  | c :: cs => if T.type ip = .dir then (T.lookup ip c).bind fun k => follow (T.ent ip k) cs else none

/-- The directory that should hold the last component, and that component. -/
def followParent (ip : ℕ) (cs : List (List UInt8)) : Option (ℕ × List UInt8) :=
  cs.getLast?.bind fun c => (T.follow ip cs.dropLast).bind fun d =>
    if T.type d = .dir then some (d, c) else none

variable {ip : ℕ}

/-- The components lead nowhere exactly if one of them is looked up in an inode that is no
directory, or is not there. -/
theorem follow_eq_none {T : Tree} {cs : List (List UInt8)} : T.follow ip cs = none ↔
    ∃ before c after d, cs = before ++ c :: after ∧ T.follow ip before = some d ∧
      (T.type d ≠ .dir ∨ T.lookup d c = none) := by
  induction cs generalizing ip with
  | nil => simp [follow]
  | cons c cs ih =>
    constructor
    · intro h
      unfold follow at h
      by_cases hdir : T.type ip = .dir
      · rw [if_pos hdir] at h
        cases hk : T.lookup ip c with
        | none => exact ⟨[], c, cs, ip, rfl, rfl, .inr hk⟩
        | some k =>
          rw [hk] at h
          obtain ⟨before, c', after, d, rfl, hd, hor⟩ := ih.1 h
          refine ⟨c :: before, c', after, d, rfl, ?_, hor⟩
          unfold follow
          rw [if_pos hdir, hk]
          exact hd
      · exact ⟨[], c, cs, ip, rfl, rfl, .inl hdir⟩
    · rintro ⟨before, c', after, d, he, hd, hor⟩
      cases before with
      | nil =>
        obtain ⟨rfl, rfl⟩ := List.cons.inj he
        obtain rfl := Option.some.inj hd
        unfold follow
        rcases hor with hdir | hk
        · rw [if_neg hdir]
        · rw [hk, Option.bind_none, ite_self]
      | cons b before =>
        obtain ⟨rfl, rfl⟩ := List.cons.inj he
        unfold follow at hd ⊢
        by_cases hdir : T.type ip = .dir
        · rw [if_pos hdir] at hd ⊢
          obtain ⟨k, hk, hd⟩ := Option.bind_eq_some_iff.1 hd
          rw [hk]
          exact ih.2 ⟨before, c', after, d, rfl, hd, hor⟩
        · rw [if_neg hdir]

/-- There is no parent exactly if there is no component, or all but the last lead nowhere or to an
inode that is no directory. -/
theorem followParent_eq_none {T : Tree} {cs : List (List UInt8)} : T.followParent ip cs = none ↔
    cs = [] ∨ ∀ d, T.follow ip cs.dropLast = some d → T.type d ≠ .dir := by
  unfold followParent
  cases hl : cs.getLast? with
  | none => simp [List.getLast?_eq_none_iff.1 hl]
  | some c =>
    have hne : cs ≠ [] := by
      rintro rfl
      exact absurd hl nofun
    cases T.follow ip cs.dropLast <;> simp [hne]

theorem followParent_cons (ip : ℕ) (c : List UInt8) (cs : List (List UInt8)) :
    T.followParent ip (c :: cs) = if T.type ip = .dir then
      if cs = [] then some (ip, c) else (T.lookup ip c).bind fun k => T.followParent (T.ent ip k) cs
    else none := by
  unfold followParent
  cases cs with
  | nil => simp [follow]
  | cons c' cs =>
    rw [List.getLast?_cons_cons, List.dropLast_cons_cons, if_neg (List.cons_ne_nil c' cs),
      List.getLast?_eq_some_getLast (List.cons_ne_nil c' cs)]
    by_cases hdir : T.type ip = .dir
    · rw [if_pos hdir]
      cases hk : T.lookup ip c with
      | none => simp [follow, hdir, hk]
      | some k => simp [follow, hdir, hk]
    · simp [follow, hdir]

variable {fuel : ℕ} {path : List UInt8}

/-- The walk of `namei`. -/
theorem walk_name {name : List UInt8} (h : path.length < fuel) :
    (T.walk false fuel ip path name).map Prod.fst = T.follow ip (comps path) := by
  induction fuel generalizing ip path name with
  | zero => omega
  | succ fuel ih =>
    unfold walk
    cases hskip : skipelem path with
    | none =>
      rw [skipelem_none hskip]
      rfl
    | some p =>
      obtain ⟨elem, rest⟩ := p
      have hlen := skipelem_length hskip
      rw [(skipelem_some hskip).1]
      unfold follow
      dsimp only
      by_cases hdir : T.type ip = .dir
      · rw [if_neg (not_not.2 hdir), if_neg (by simp), if_pos hdir, Option.map_bind]
        exact congrArg _ (funext fun k => ih (by omega))
      · rw [if_pos hdir, if_neg hdir]
        rfl

/-- The walk of `nameiparent`. -/
theorem walk_parent_eq {name : List UInt8} (h : path.length < fuel) :
    T.walk true fuel ip path name = T.followParent ip (comps path) := by
  induction fuel generalizing ip path name with
  | zero => omega
  | succ fuel ih =>
    unfold walk
    cases hskip : skipelem path with
    | none =>
      rw [skipelem_none hskip]
      rfl
    | some p =>
      obtain ⟨elem, rest⟩ := p
      have hlen := skipelem_length hskip
      obtain ⟨hcomps, hlast⟩ := skipelem_some hskip
      rw [hcomps, followParent_cons]
      dsimp only
      by_cases hdir : T.type ip = .dir
      · rw [if_neg (not_not.2 hdir), if_pos hdir]
        by_cases hr : rest = []
        · rw [if_pos ⟨rfl, hr⟩, if_pos (hlast.1 hr)]
        · rw [if_neg fun hc => hr hc.2, if_neg (mt hlast.2 hr)]
          exact congrArg _ (funext fun k => ih (by omega))
      · rw [if_pos hdir, if_neg hdir]

/-! ## Room on the way -/

variable (r : ℕ → ℕ) (n : ℕ)

/-- Following the components from `ip` comes to an inode for which there is no room in the table;
`nameiparent` does not look up the last one. -/
def JamsAlong (nameiparent : Bool) (ip : ℕ) : List (List UInt8) → Prop
  | [] => False
  | c :: cs => T.type ip = .dir ∧ ¬ (nameiparent = true ∧ cs = []) ∧
      ∃ k, T.lookup ip c = some k ∧
        (Crowded r n ip (T.ent ip k) ∨ JamsAlong nameiparent (T.ent ip k) cs)

theorem jams_iff (parent : Bool) (h : path.length < fuel) :
    T.Jams r n parent fuel ip path ↔ T.JamsAlong r n parent ip (comps path) := by
  induction fuel generalizing ip path with
  | zero => omega
  | succ fuel ih =>
    unfold Jams
    cases hskip : skipelem path with
    | none =>
      rw [skipelem_none hskip]
      rfl
    | some p =>
      obtain ⟨elem, rest⟩ := p
      have hlen := skipelem_length hskip
      obtain ⟨hcomps, hlast⟩ := skipelem_some hskip
      rw [hcomps]
      unfold JamsAlong
      dsimp only
      have hih : ∀ k, T.Jams r n parent fuel (T.ent ip k) rest ↔
          T.JamsAlong r n parent (T.ent ip k) (comps rest) := fun k => ih (by omega)
      simp only [hih, hlast]

/-- Resolving a path overflows the table of inodes: at the root, or on the way. -/
def NoRoom (nameiparent absolute : Bool) (cwd : ℕ) (cs : List (List UInt8)) : Prop :=
  absolute = true ∧ r rootino = 0 ∧ ninode ≤ n ∨
    T.JamsAlong r n nameiparent (if absolute then rootino else cwd) cs

theorem jamsPath_iff (parent : Bool) (cwd : ℕ) (path : List UInt8) :
    T.JamsPath r n cwd path parent ↔
      T.NoRoom r n parent (path.head? = some slash) cwd (comps path) := by
  have hlen := Nat.lt_succ_self path.length
  unfold JamsPath NoRoom
  by_cases hs : path.head? = some slash
  · simp [hs, T.jams_iff r n parent hlen]
  · simp [hs, T.jams_iff r n parent hlen]

/-- The table overflows only if all its entries but one are in use. -/
theorem NoRoom.full {T : Tree} {r : ℕ → ℕ} {n : ℕ} {parent absolute : Bool} {cwd : ℕ}
    {cs : List (List UInt8)} (h : T.NoRoom r n parent absolute cwd cs) : ninode ≤ n + 1 := by
  have along : ∀ (cs : List (List UInt8)) (ip : ℕ), T.JamsAlong r n parent ip cs → ninode ≤ n + 1 := by
    intro cs
    induction cs with
    | nil => exact fun _ hj => hj.elim
    | cons c cs ih =>
      rintro ip ⟨-, -, k, -, ⟨-, -, hc⟩ | hj⟩
      · unfold slotFor at hc
        split_ifs at hc <;> omega
      · exact ih _ hj
  rcases h with ⟨-, -, hn⟩ | hj
  · omega
  · exact along cs _ hj

end Tree

/-! ## `namei` and `nameiparent` -/

/-- A consistent file system that a process with current directory `cwd` looks up paths in: between
two calls, the entries of the inode table are counted right, no entry of a directory names a free
inode, and the process holds a reference to `cwd`. -/
structure Searchable (s : State) (cwd : ℕ) : Prop where
  state : At s.sb.ninodes s.tree (fun j => (s.itable j).ref) [] s
  tallied : s.Tallied
  noDangle : s.tree.NoDangle
  root : s.tree.type rootino = .dir
  cwd_ref : 0 < (s.itable cwd).ref
  cwd_live : s.tree.type cwd ≠ .free

/-- Every process of every run of sound calls finds such a file system. -/
theorem Boot.searchable {s₀ s : Sys} (h₀ : Boot s₀) (hr : Reach Sys.step (Meets Sound) s₀ s)
    {p cwd : ℕ} (hcwd : (s.procs p).cwd = some cwd) : Searchable s.fs cwd := by
  obtain ⟨hs, hI, hno⟩ := h₀.reach_sound hr
  have hrefs : (fun j => (s.fs.itable j).ref) = s.refs := funext hs.start.ref
  refine ⟨?_, (h₀.reach_sane hr).tallied, hno, hI.root, hs.cwd_ref hcwd,
    hs.live cwd (hs.toBooks.cwd_pos hcwd)⟩
  rw [hrefs, hs.fs.num]
  exact hs.start

/-- From `s` to `s'` nothing in the tree has changed, and the one reference more is to `res`. -/
def Holds (s s' : State) (res : Option ℕ) : Prop :=
  s'.tree = s.tree ∧ ∀ j, (s'.itable j).ref = (s.itable j).ref + if res = some j then 1 else 0

/-- Where a path starts. -/
def pathStart (cwd : ℕ) (path : List UInt8) : ℕ := if path.head? = some slash then rootino else cwd

section Resolution

variable {s : State} {cwd : ℕ}

/-- On its way along the path `namex` needs an entry of the table of inodes when all are in use. -/
def Overflows (s : State) (cwd : ℕ) (path : List UInt8) (nameiparent : Bool) : Prop :=
  s.tree.NoRoom (fun j => (s.itable j).ref) s.inuse nameiparent (path.head? = some slash) cwd (comps path)

/-- **`namex`** returns `Tree.resolve`, or the table overflows. -/
theorem Searchable.namex (h : Searchable s cwd) (path : List UInt8) (parent : Bool) :
    (¬ Overflows s cwd path parent ∧ ∃ s',
      Fs.namex cwd path parent s = .ok (s.tree.resolve cwd path parent, s') ∧
        Holds s s' ((s.tree.resolve cwd path parent).map Prod.fst)) ∨
      Overflows s cwd path parent ∧ Fs.namex cwd path parent s = .error noInodes := by
  have hlive : s.tree.type (if path.head? = some slash then rootino else cwd) ≠ .free := by
    split_ifs
    · rw [h.root]
      exact nofun
    · exact h.cwd_live
  have hat := namex_at h.state h.cwd_ref h.cwd_live path parent
  have hroom := namex_room h.state rfl h.cwd_ref path parent
  rw [Tree.jamsPath_iff] at hroom
  cases hrun : Fs.namex cwd path parent s with
  | ok p =>
    obtain ⟨res, s'⟩ := p
    rw [hrun] at hat hroom
    obtain ⟨rfl, hs'⟩ := hat
    refine .inl ⟨hroom.1, s', rfl, hs'.tree, fun j => ?_⟩
    rw [hs'.ref j]
    cases s.tree.resolve cwd path parent with
    | none => rfl
    | some p =>
      simp only [moreFound, Option.map_some, Option.some.injEq]
      by_cases hj : j = p.1
      · rw [hj, more_self, if_pos rfl]
      · rw [more_of_ne _ hj, if_neg (Ne.symm hj)]
        rfl
  | error e =>
    rw [hrun] at hroom
    rcases hroom with ⟨⟨rfl, hj⟩ | ⟨hne, -⟩, hfree⟩
    · exact .inr ⟨hj, rfl⟩
    · exact absurd h.noDangle (hfree hne hlive)

theorem Searchable.namei (h : Searchable s cwd) (path : List UInt8) :
    (¬ Overflows s cwd path false ∧ ∃ s',
      Fs.namei cwd path s = .ok (s.tree.follow (pathStart cwd path) (comps path), s') ∧
        Holds s s' (s.tree.follow (pathStart cwd path) (comps path))) ∨
      Overflows s cwd path false ∧ Fs.namei cwd path s = .error noInodes := by
  have hwalk : (s.tree.resolve cwd path false).map Prod.fst =
      s.tree.follow (pathStart cwd path) (comps path) := s.tree.walk_name (Nat.lt_succ_self path.length)
  unfold Fs.namei
  rcases h.namex path false with ⟨hno, s', hrun, hs'⟩ | ⟨hj, hrun⟩
  · rw [hwalk] at hs'
    refine .inl ⟨hno, s', ?_, hs'⟩
    rw [Run.bind_of_ok hrun, ← hwalk]
    rfl
  · exact .inr ⟨hj, Run.bind_of_error hrun⟩

theorem Searchable.nameiparent (h : Searchable s cwd) (path : List UInt8) :
    (¬ Overflows s cwd path true ∧ ∃ s',
      Fs.nameiparent cwd path s = .ok (s.tree.followParent (pathStart cwd path) (comps path), s') ∧
        Holds s s' ((s.tree.followParent (pathStart cwd path) (comps path)).map Prod.fst)) ∨
      Overflows s cwd path true ∧ Fs.nameiparent cwd path s = .error noInodes := by
  have hwalk : s.tree.resolve cwd path true = s.tree.followParent (pathStart cwd path) (comps path) :=
    s.tree.walk_parent_eq (Nat.lt_succ_self path.length)
  rw [← hwalk]
  exact h.namex path true

end Resolution

/-- What a computation returns, without the state it leaves. -/
def returned {α : Type} (r : Except Stop (α × State)) : Except Stop α := r.map Prod.fst

/-- Two computations that return the same value or overflow, on the same condition. -/
theorem returned_congr {α : Type} {J J' : Prop} {x x' : Except Stop (α × State)} {v : α}
    {H H' : State → Prop} (h : (¬ J ∧ ∃ s, x = .ok (v, s) ∧ H s) ∨ J ∧ x = .error noInodes)
    (h' : (¬ J' ∧ ∃ s, x' = .ok (v, s) ∧ H' s) ∨ J' ∧ x' = .error noInodes) (hJ : J' ↔ J) :
    returned x' = returned x := by
  rw [hJ] at h'
  rcases h with ⟨hno, s, rfl, -⟩ | ⟨hj, rfl⟩
  · obtain ⟨-, s', rfl, -⟩ := h'.resolve_right fun hc => hno hc.1
    rfl
  · obtain ⟨-, rfl⟩ := h'.resolve_left fun hc => hc.1 hj
    rfl

/-- **Path resolution.** In a consistent file system `namei` returns the inode that the components
of the path lead to, and `nameiparent` the directory that should hold the last one with its name, or
nothing if a component is not there or is looked up in an inode that is no directory; a reference to
the inode returned is kept and no other. They panic exactly if
an inode on the way needs an entry of the inode table when all are taken. Both depend on the
path only by its components and whether it begins with a slash. -/
theorem path_resolution {s : State} {cwd : ℕ} (h : Searchable s cwd) (path : List UInt8) :
    (¬ Overflows s cwd path false → ∃ s',
      namei cwd path s = .ok (s.tree.follow (pathStart cwd path) (comps path), s') ∧
        Holds s s' (s.tree.follow (pathStart cwd path) (comps path))) ∧
    (¬ Overflows s cwd path true → ∃ s',
      nameiparent cwd path s = .ok (s.tree.followParent (pathStart cwd path) (comps path), s') ∧
        Holds s s' ((s.tree.followParent (pathStart cwd path) (comps path)).map Prod.fst)) ∧
    (s.tree.follow (pathStart cwd path) (comps path) = none ↔
      ∃ before c after d, comps path = before ++ c :: after ∧
        s.tree.follow (pathStart cwd path) before = some d ∧
          (s.tree.type d ≠ .dir ∨ s.tree.lookup d c = none)) ∧
    (s.tree.followParent (pathStart cwd path) (comps path) = none ↔ comps path = [] ∨
      ∀ d, s.tree.follow (pathStart cwd path) (comps path).dropLast = some d → s.tree.type d ≠ .dir) ∧
    (Overflows s cwd path false → namei cwd path s = .error noInodes) ∧
    (Overflows s cwd path true → nameiparent cwd path s = .error noInodes) ∧
    ∀ path', (path'.head? = some slash ↔ path.head? = some slash) → comps path' = comps path →
      returned (namei cwd path' s) = returned (namei cwd path s) ∧
        returned (nameiparent cwd path' s) = returned (nameiparent cwd path s) := by
  refine ⟨fun hno => ?_, fun hno => ?_, Tree.follow_eq_none, Tree.followParent_eq_none, fun hj => ?_,
    fun hj => ?_, fun path' hs hc => ?_⟩
  · rcases h.namei path with ⟨-, hres⟩ | ⟨hj, -⟩
    · exact hres
    · exact absurd hj hno
  · rcases h.nameiparent path with ⟨-, hres⟩ | ⟨hj, -⟩
    · exact hres
    · exact absurd hj hno
  · rcases h.namei path with ⟨hno, -⟩ | ⟨-, hres⟩
    · exact absurd hj hno
    · exact hres
  · rcases h.nameiparent path with ⟨hno, -⟩ | ⟨-, hres⟩
    · exact absurd hj hno
    · exact hres
  · -- the conditions and the results are the same
    have hstart : pathStart cwd path' = pathStart cwd path := by
      unfold pathStart
      simp only [hs]
    have hover : ∀ parent, Overflows s cwd path' parent ↔ Overflows s cwd path parent := by
      intro parent
      unfold Overflows
      simp only [hc, hs]
    have hname := h.namei path'
    have hparent := h.nameiparent path'
    rw [hstart, hc] at hname hparent
    exact ⟨returned_congr (h.namei path) hname (hover false),
      returned_congr (h.nameiparent path) hparent (hover true)⟩

/-- In a new directory `a` the path `/a/.` leads back to it. -/
theorem path_resolution_dot : ∃ s s', bootSys.step (0, .mkdir [97]) = some s ∧
    namei rootino [47, 97, 47, 46] s.fs = .ok (some 2, s') ∧ Holds s.fs s' (some 2) := by
  obtain ⟨s, hs, hcwd, hn, hfollow⟩ : ∃ s, bootSys.step (0, .mkdir [97]) = some s ∧
      (s.procs 0).cwd = some rootino ∧ s.fs.inuse = 1 ∧
      s.fs.tree.follow rootino (comps [47, 97, 47, 46]) = some 2 := exists_some (by decide +kernel)
  have hm : Meets Sound bootSys (0, .mkdir [97]) :=
    bootSys_mkdir fun _ _ _ _ hn => ⟨trivial, hn, trivial⟩
  obtain ⟨s', hrun, hholds⟩ := (path_resolution (bootSys_boot.searchable (.tail .refl hm hs) hcwd)
    [47, 97, 47, 46]).1 fun hc => absurd hc.full (by rw [hn]; decide)
  rw [show pathStart rootino [47, 97, 47, 46] = rootino from rfl, hfollow] at hrun hholds
  exact ⟨s, s', hs, hrun, hholds⟩

/-! ## A full table -/

/-- The references to the first fifty inodes of the image with fifty files. -/
def fiftyRefs (i : ℕ) : ℕ := if 1 ≤ i ∧ i ≤ 50 then 1 else 0

/-- The image with the root directory and 49 of the files in the table of inodes. -/
def fiftyState : State := { manyImage with itable := fun i => ⟨fiftyRefs i, false, .zero⟩, inuse := 50 }

theorem fiftyState_searchable : Searchable fiftyState rootino where
  state := by
    refine ⟨manyImage_wf.of_table rfl rfl rfl rfl fun j hj => ?_, rfl, rfl, fun _ => rfl, nofun,
      fun j ht hn => ?_, fun j hj => ?_⟩
    · exact absurd hj.2 nofun
    · exact absurd (manySys_boot.ok.start.orphan j ht hn).2 nofun
    · exact manySys_boot.ok.start.aligned j hj
  tallied := by
    refine ⟨Finset.Icc 1 50, fun j => ?_, rfl⟩
    change _ ↔ 0 < fiftyRefs j
    unfold fiftyRefs
    rw [Finset.mem_Icc]
    split_ifs <;> omega
  noDangle := manySys_boot.inv.noDangle manySys_boot.up
  root := by decide
  cwd_ref := by decide
  cwd_live := by decide

/-- **A lookup panics**: fifty inodes are in the table, and the path `a` leads to another one. -/
theorem namei_overflows : Searchable fiftyState rootino ∧
    fiftyState.tree.follow rootino (comps [97]) = some 51 ∧
      namei rootino [97] fiftyState = .error (.panic "iget: no inodes") := by
  have hrun : (match namei rootino [97] fiftyState with
      | .ok _ => none
      | .error e => some e) = some noInodes := by
    decide +kernel
  refine ⟨fiftyState_searchable, by decide +kernel, ?_⟩
  cases h : namei rootino [97] fiftyState with
  | ok p => rw [h] at hrun; cases hrun
  | error e => rw [h] at hrun; rw [Option.some.inj hrun]; rfl

end Xv6.Fs
