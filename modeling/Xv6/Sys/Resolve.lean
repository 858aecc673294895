import Xv6.Sys.Boot

/-!
# Path resolution

`skipelem` takes a path apart one element at a time, and `namex` follows the elements as it gets
them. Here the elements are all there is to a path: a path is split at its slashes, and `namei` and
`nameiparent` are walks over the list of elements.
-/

namespace Xv6.Kernel

open Lib Act List

/-! ## The elements of a path -/

/-- The elements of a path: what stands between the slashes and is not empty, cut to `DIRSIZ`
characters. -/
def components (path : Path) : List Path :=
  ((path.splitOn slash).filter fun s => s ≠ []).map fun s => s.take DIRSIZ

@[simp] theorem components_nil : components [] = [] := rfl

theorem components_slash (path : Path) : components (slash :: path) = components path := by
  simp [components, List.splitOn, splitOnP_cons_eq_if_modifyHead]

/-- Leading slashes do not matter. -/
theorem components_dropWhile (path : Path) :
    components (path.dropWhile (· = slash)) = components path := by
  induction path with
  | nil => rfl
  | cons c path ih =>
    by_cases hc : c = slash
    · subst hc
      rw [dropWhile_cons_of_pos (by simp), components_slash, ih]
    · rw [dropWhile_cons_of_neg (by simpa using hc)]

variable {s path name rest : Path} {turns : Nat} {ip : Fin NINODE}

theorem components_eq_singleton (hs : s ≠ []) (hslash : ∀ c ∈ s, c ≠ slash) :
    components s = [s.take DIRSIZ] := by
  rw [components, List.splitOn, splitOnP_eq_singleton (by simpa using hslash)]
  simp [hs]

theorem components_append (hs : s ≠ []) (hslash : ∀ c ∈ s, c ≠ slash) :
    components (s ++ slash :: path) = s.take DIRSIZ :: components path := by
  rw [components, List.splitOn,
    splitOnP_append_cons_of_forall_mem (by simpa using hslash) slash (by simp)]
  simp [hs, components, List.splitOn]

/-- A path that does not begin with a slash: its first element, and what is left. -/
theorem components_takeWhile (hne : path ≠ []) (hhead : path.head? ≠ some slash) :
    components path = (path.takeWhile (· ≠ slash)).take DIRSIZ ::
      components (path.dropWhile (· ≠ slash)) ∧ path.takeWhile (· ≠ slash) ≠ [] := by
  have hs : path.takeWhile (· ≠ slash) ≠ [] := by
    cases path with
    | nil => exact absurd rfl hne
    | cons c path =>
      have hc : c ≠ slash := by simpa using hhead
      simp [hc]
  have hslash : ∀ c ∈ path.takeWhile (· ≠ slash), c ≠ slash := fun c hc => by
    simpa using all_eq_true.mp all_takeWhile c hc
  have hsplit := takeWhile_append_dropWhile (p := (· ≠ slash)) (l := path)
  refine ⟨?_, hs⟩
  cases hq : path.dropWhile (· ≠ slash) with
  | nil =>
    rw [hq, append_nil] at hsplit
    conv_lhs => rw [← hsplit]
    exact components_eq_singleton hs hslash
  | cons c q =>
    have hc : c = slash := by
      have hnot := head?_dropWhile_not (· ≠ slash) path
      rw [hq] at hnot
      simpa using hnot
    subst hc
    rw [hq] at hsplit
    conv_lhs => rw [← hsplit]
    rw [components_append hs hslash, components_slash]

theorem components_eq_nil (hhead : path.head? ≠ some slash) : components path = [] ↔ path = [] := by
  refine ⟨fun h => ?_, fun h => by rw [h]; rfl⟩
  by_contra hne
  rw [(components_takeWhile hne hhead).1] at h
  cases h

theorem head_dropWhile_slash (path : Path) :
    (path.dropWhile (· = slash)).head? ≠ some slash := by
  intro h
  have hnot := head?_dropWhile_not (· = slash) path
  rw [h] at hnot
  simp at hnot

theorem skipelem_eq_none : skipelem path = none ↔ components path = [] := by
  rw [← components_dropWhile, components_eq_nil (head_dropWhile_slash path)]
  unfold skipelem
  simp only
  split
  · rename_i hnil
    exact ⟨fun _ => hnil, fun _ => rfl⟩
  · rename_i hne
    exact ⟨fun h => (by cases h), fun h => absurd h hne⟩

/-- `skipelem` yields the first element and a path of the others, which begins with the next one if
there is one. -/
theorem skipelem_eq_some (h : skipelem path = some (name, rest)) :
    components path = name :: components rest ∧ rest.length < path.length ∧
      (components rest = [] ↔ rest = []) := by
  unfold skipelem at h
  simp only at h
  generalize hp : path.dropWhile (· = slash) = p at h
  have hhead : p.head? ≠ some slash := hp ▸ head_dropWhile_slash path
  split at h
  · cases h
  · rename_i hne
    obtain ⟨rfl, rfl⟩ := Prod.mk.inj (Option.some.inj h)
    obtain ⟨hcomp, hs⟩ := components_takeWhile hne hhead
    have hdrop : p.drop (p.takeWhile (· ≠ slash)).length = p.dropWhile (· ≠ slash) := by
      have hleft := @List.drop_left _ (p.takeWhile (· ≠ slash)) (p.dropWhile (· ≠ slash))
      rwa [takeWhile_append_dropWhile] at hleft
    rw [hdrop]
    refine ⟨?_, ?_, components_eq_nil (head_dropWhile_slash _)⟩
    · rw [← components_dropWhile path, hp, hcomp, components_dropWhile]
    · calc ((p.dropWhile (· ≠ slash)).dropWhile (· = slash)).length
          ≤ (p.dropWhile (· ≠ slash)).length := (dropWhile_sublist _).length_le
        _ < p.length := by
          have hlen := congrArg List.length
            (takeWhile_append_dropWhile (p := (· ≠ slash)) (l := p))
          rw [length_append] at hlen
          have hpos := length_pos_of_ne_nil hs
          omega
        _ ≤ path.length := hp ▸ (dropWhile_sublist _).length_le

/-- What `skipelem` yields when it is called again and again on what it has returned, until it
returns 0. -/
def elements (path : Path) : List Path :=
  match h : skipelem path with
  | none => []
  | some (name, rest) =>
    have := (skipelem_eq_some h).2.1
    name :: elements rest
termination_by path.length

theorem elements_eq_components (path : Path) : elements path = components path := by
  induction hn : path.length using Nat.strong_induction_on generalizing path with
  | _ n ih =>
    subst hn
    rw [elements]
    split
    · rename_i h
      exact (skipelem_eq_none.mp h).symm
    · rename_i name rest h
      obtain ⟨hcomp, hlt, -⟩ := skipelem_eq_some h
      rw [hcomp, ih _ hlt rest rfl]

/-! ## Walks -/

/-- Where a path starts: at the root directory or at the working directory. -/
def walkStart (path : Path) : K (Fin NINODE) :=
  if path.head? = some slash then iget ROOTDEV ROOTINO
  else do
    let e ← cwd
    idup e

/-- Whether names can be looked up in `ip`, which is locked. -/
def isDirectory (ip : Fin NINODE) : K Bool := do
  let dp ← inode ip
  if dp.d.type = T_DIR then pure true else isDevDir ip

/-- From a directory to what it has under a name; `none` if it is no directory or has no such
name. -/
def enter (ip : Fin NINODE) (name : Path) : K (Option (Fin NINODE)) := do
  ilock ip
  let dir ← isDirectory ip
  if dir = false then
    iunlockput ip
    return none
  else
    let next ← dirlookup ip name
    iunlockput ip
    return next.map Prod.fst

/-- `dirlookup` folded over names. -/
def walk : Fin NINODE → List Path → K (Option (Fin NINODE))
  | ip, [] => return some ip
  | ip, name :: names => do
    let next ← enter ip name
    match next with
    | none => return none
    | some next => walk next names

/-- The directory that a walk comes to before the last name, with that name. -/
def walkParent (ip : Fin NINODE) (names : List Path) : K (Option (Fin NINODE × Path)) :=
  match names.getLast? with
  | none => do
    iput ip
    return none
  | some last => do
    let dp ← walk ip names.dropLast
    match dp with
    | none => return none
    | some dp =>
      ilock dp
      let dir ← isDirectory dp
      if dir = false then
        iunlockput dp
        return none
      else
        iunlock dp
        return some (dp, last)

/-- A turn of `namex`. -/
theorem namexLoop_turn {parent : Bool} (h : skipelem path = some (name, rest)) :
    namexLoop parent (turns + 1) ip path = (do
      ilock ip
      let dir ← isDirectory ip
      if dir = false then
        iunlockput ip
        return none
      else if parent = true ∧ rest = [] then
        iunlock ip
        return some (ip, name)
      else
        let next ← dirlookup ip name
        iunlockput ip
        match next with
        | none => return none
        | some (next, _) => namexLoop parent turns next rest) := by
  rw [namexLoop, h]
  refine bind_congr fun _ => ?_
  rw [isDirectory, Act.bind_assoc]
  exact bind_congr fun dp => (apply_ite (· >>= _) _ _ _).symm

theorem namexLoop_eq_walk (h : path.length < turns) : namexLoop false turns ip path = do
      let r ← walk ip (components path)
      return r.map fun e => (e, []) := by
  induction turns generalizing ip path with
  | zero => omega
  | succ turns ih =>
    cases hskip : skipelem path with
    | none =>
      rw [namexLoop, hskip, skipelem_eq_none.mp hskip]
      rfl
    | some p =>
      obtain ⟨name, rest⟩ := p
      obtain ⟨hcomp, hlt, -⟩ := skipelem_eq_some hskip
      rw [namexLoop_turn hskip, hcomp]
      simp only [walk, enter, Act.bind_assoc]
      refine bind_congr fun _ => bind_congr fun dir => ?_
      cases dir with
      | false => simp
      | true =>
        simp only [Bool.true_eq_false, if_false, Act.bind_assoc]
        refine bind_congr fun next => bind_congr fun _ => ?_
        cases next with
        | none => simp
        | some x =>
          obtain ⟨next, off⟩ := x
          simp only [Option.map_some, Act.pure_bind]
          exact ih (by omega)

theorem walkParent_cons {names : List Path} (h : names ≠ []) : walkParent ip (name :: names) = (do
      let next ← enter ip name
      match next with
      | none => return none
      | some next => walkParent next names) := by
  obtain ⟨last, hlast⟩ := Option.ne_none_iff_exists'.mp (mt getLast?_eq_none_iff.mp h)
  have hcons : (name :: names).getLast? = some last := by
    rw [getLast?_cons, hlast]
    rfl
  simp only [walkParent, hcons, hlast, dropLast_cons_of_ne_nil h, walk, Act.bind_assoc]
  refine bind_congr fun next => ?_
  cases next with
  | none => simp
  | some next => rfl

theorem namexLoop_eq_walkParent (h : path.length < turns) :
    namexLoop true turns ip path = walkParent ip (components path) := by
  induction turns generalizing ip path with
  | zero => omega
  | succ turns ih =>
    cases hskip : skipelem path with
    | none =>
      rw [namexLoop, hskip, skipelem_eq_none.mp hskip]
      rfl
    | some p =>
      obtain ⟨name, rest⟩ := p
      obtain ⟨hcomp, hlt, hrest⟩ := skipelem_eq_some hskip
      rw [namexLoop_turn hskip, hcomp]
      by_cases hlast : rest = []
      · -- the last element: `namex` stops here
        subst hlast
        simp [walkParent, walk]
      · rw [walkParent_cons fun hnil => hlast (hrest.mp hnil)]
        simp only [enter, Act.bind_assoc]
        refine bind_congr fun _ => bind_congr fun dir => ?_
        cases dir with
        | false => simp
        | true =>
          simp only [Bool.true_eq_false, if_false, hlast, and_false, Act.bind_assoc]
          refine bind_congr fun next => bind_congr fun _ => ?_
          cases next with
          | none => simp
          | some x =>
            obtain ⟨next, off⟩ := x
            simp only [Option.map_some, Act.pure_bind]
            exact ih (by omega)

theorem namex_eq (path : Path) (parent : Bool) : namex path parent = (do
    let ip ← walkStart path
    namexLoop parent (path.length + 1) ip path) := by
  unfold namex walkStart
  split
  · rfl
  · rw [Act.bind_assoc]

/-- Resolution follows the grammar of paths: `skipelem` yields the elements of the path, `namei`
folds `dirlookup` over them, and `nameiparent` does so for all but the last. -/
theorem path_resolution (path : Path) : elements path = components path ∧
    namei path = (do
      let ip ← walkStart path
      walk ip (components path)) ∧
    nameiparent path = (do
      let ip ← walkStart path
      walkParent ip (components path)) := by
  refine ⟨elements_eq_components path, ?_, ?_⟩
  · rw [namei, namex_eq, Act.bind_assoc]
    refine bind_congr fun ip => ?_
    rw [namexLoop_eq_walk (Nat.lt_succ_self _)]
    simp only [Act.bind_assoc, Act.pure_bind]
    conv_rhs => rw [← Act.bind_pure (walk ip (components path))]
    refine bind_congr fun r => ?_
    cases r <;> rfl
  · rw [nameiparent, namex_eq]
    exact bind_congr fun ip => namexLoop_eq_walkParent (Nat.lt_succ_self _)

/-- A regular file. -/
def fileF : List (Fin NPROC × Call) :=
  [(proc0, .open (some (cstr "f")) (some (O_CREATE ||| O_RDWR)))]

/-- The walk gets to the file, and `nameiparent` does not. -/
def findsFileOnly (k : Kernel) : Bool :=
  match (do let ip ← walkStart (cstr "f/x"); walk ip [cstr "f"] : K (Option (Fin NINODE))) k,
    nameiparent (cstr "f/x") k with
  | .ok (some _) _ _, .ok none _ _ => true
  | _, _ => false

/-- `f` is a regular file: `nameiparent("f/x")` does not give the inode of `f` with the name `x`. -/
theorem nameiparent_of_file : components (cstr "f/x") = [cstr "f", cstr "x"] ∧
    ∃ k es e k1 es1 k2 es2, rootRun fileF = some (k, es) ∧
      (do let ip ← walkStart (cstr "f/x"); walk ip [cstr "f"] : K (Option (Fin NINODE))) k =
        .ok (some e) k1 es1 ∧
      nameiparent (cstr "f/x") k = .ok none k2 es2 := by
  refine ⟨by decide, ?_⟩
  have hcheck : (rootRun fileF).any (fun s => findsFileOnly s.1) = true := by decide +kernel
  obtain ⟨s, hrun, hfinds⟩ := (Option.any_eq_true ..).mp hcheck
  unfold findsFileOnly at hfinds
  split at hfinds
  · rename_i e k1 es1 k2 es2 hwalk hparent
    exact ⟨s.1, s.2, e, k1, es1, k2, es2, hrun, hwalk, hparent⟩
  · cases hfinds

end Xv6.Kernel
