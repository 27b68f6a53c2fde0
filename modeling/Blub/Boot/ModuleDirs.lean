import Blub.Lib.Bytes
import Blub.Lib.Distinct
import Blub.Lib.Trace

/-! The directories that modules are searched in, from `module.c`: the list is rebuilt before every search. -/
namespace Blub.Boot.Mod
open Blub.Bytes Blub.Distinct Blub.Trace

abbrev Path : Type := List UInt8

/-- A `struct moduledir`; the two flags of `d_flags` one by one. -/
structure ModuleDir where
  path : Path
  hints : Option (List UInt8)
  removed : Bool
  nohints : Bool

def slash : UInt8 := 47
def semicolon : UInt8 := 59

/-- `modules;KERNEL`. -/
def defaultSearchpath : Path := [109,111,100,117,108,101,115,59,75,69,82,78,69,76]

/-- `../modules.local`. -/
def localModulePath : Path := [46,46,47,109,111,100,117,108,101,115,46,108,111,99,97,108]

/-- `YES`. -/
def yes : List UInt8 := [89,69,83]

/-- The environment variables `module_path` and `local_modules`. -/
structure Settings where
  modulePath : Option Path
  localModules : Option (List UInt8)

section Code

/-- Trailing slashes are ignored: the length that is left. -/
def trimmed (cp : List UInt8) : ℕ → ℕ
  | 0 => 0
  | n+1 => if 0 < n ∧ cp.getD n 0 = slash then trimmed cp n else n+1

/-- The pieces from `ep` on; `cp` is what the current one has so far. -/
def pathPieces (cp : List UInt8) : List UInt8 → List Path
  | [] => [cp]
  | c :: ep => if c = semicolon then cp :: (if ep = [] then [] else pathPieces [] ep) else pathPieces (cp ++ [c]) ep

/-- A directory that is in the list stays in its place, another is appended. -/
def keepDir (path : Path) : List ModuleDir → List ModuleDir
  | [] => [⟨path,none,false,false⟩]
  | mdp :: l => if mdp.path = path then {mdp with removed := false} :: l else mdp :: keepDir path l

/-- The paths that `moduledir_rebuild` goes through. -/
def wantedPaths (env : Settings) : List Path :=
  let path := env.modulePath.getD defaultSearchpath
  (if path = [] then [] else (pathPieces [] path).map fun cp => cp.take (trimmed cp cp.length)) ++
    if env.localModules = some yes then [localModulePath] else []

/-- `moduledir_rebuild`. -/
def moduledirRebuild (env : Settings) (l : List ModuleDir) : List ModuleDir :=
  ((wantedPaths env).foldl (fun l path => keepDir path l) (l.map fun mdp => {mdp with removed := true})).filter
    fun mdp => !mdp.removed

/-- `moduledir_readhints`: the file is its size by `rel_stat` and what can be read of it. -/
def moduledirReadhints (hintsVersion : ℕ) (file : Option (ℕ × List UInt8)) (mdp : ModuleDir) : ModuleDir :=
  if mdp.hints.isSome ∨ mdp.nohints then mdp
  else
    match file with
    | none => {mdp with nohints := true}
    | some (size,bytes) =>
      if size < 8 ∨ 100*1024 < size then {mdp with nohints := true}
      else if bytes.length < 4 ∨ leGet (ofList bytes) 0 4 ≠ hintsVersion then {mdp with nohints := true}
      else
        let hints := (bytes.drop 4).take (size-4)
        if hints.length = size-4 then {mdp with hints := some hints} else {mdp with nohints := true}

attribute [local grind =] trimmed pathPieces keepDir

end Code

inductive DirCall
  | setPath (value : Option Path)
  | setLocal (value : Option (List UInt8))
  /-- A search that looks into the first `looked` directories. -/
  | search (looked : ℕ) (files : Path → Option (ℕ × List UInt8))

structure DirState where
  env : Settings
  dirs : List ModuleDir

/-- One call; a search answers with the directories it goes through. -/
def dirStep (hintsVersion : ℕ) (s : DirState) : DirCall → Option (List Path) × DirState
  | .setPath value => (none,{s with env := {s.env with modulePath := value}})
  | .setLocal value => (none,{s with env := {s.env with localModules := value}})
  | .search looked files =>
    let dirs := moduledirRebuild s.env s.dirs
    let read := (dirs.take looked).map fun mdp => moduledirReadhints hintsVersion (files mdp.path) mdp
    (some (dirs.map (·.path)),⟨s.env,read ++ dirs.drop looked⟩)

attribute [local grind =] dirStep

section Spec

def withoutEmptyLast (pieces : List Path) : List Path := if pieces.getLast? = some [] then pieces.dropLast else pieces

/-- What the variable lists: the pieces between semicolons, no last one if that is empty. -/
def listedPaths (path : Path) : List Path := withoutEmptyLast (path.splitOn semicolon)

def stripped (cp : Path) : Path := cp.take (trimmed cp cp.length)

/-- The directories by the settings alone. -/
def settingDirs (env : Settings) : List Path :=
  let dirs := ((listedPaths (env.modulePath.getD defaultSearchpath)).map stripped).eraseDups
  if env.localModules = some yes ∧ localModulePath ∉ dirs then dirs ++ [localModulePath] else dirs

/-- A loader that goes through the directories of its current settings. -/
def specStep (env : Settings) : DirCall → Option (List Path) × Settings
  | .setPath value => (none,{env with modulePath := value})
  | .setLocal value => (none,{env with localModules := value})
  | .search _ _ => (some (settingDirs env),env)

/-- What each search keeps of the directories of the one before is the beginning of its own; `last` are those of the last
search. -/
def Aligned (last : List Path) (env : Settings) : List DirCall → Prop
  | [] => True
  | .search _ _ :: calls =>
    last.filter (· ∈ settingDirs env) <+: settingDirs env ∧ Aligned (settingDirs env) env calls
  | .setPath value :: calls => Aligned last {env with modulePath := value} calls
  | .setLocal value :: calls => Aligned last {env with localModules := value} calls

attribute [local grind =] specStep Aligned

end Spec

section Rebuild

theorem map_path_keepDir (path : Path) (l : List ModuleDir) : (keepDir path l).map (·.path) =
    if path ∈ l.map (·.path) then l.map (·.path) else l.map (·.path) ++ [path] := by
  induction l with
  | nil => rfl
  | cons mdp l ih =>
    rw [keepDir]
    by_cases heq : mdp.path = path
    · simp [heq]
    · rw [if_neg heq,List.map_cons,ih]
      by_cases hmem : path ∈ l.map (·.path)
      · simp [hmem]
      · have hne : path ≠ mdp.path := fun h => heq h.symm
        simp only [List.map_cons,List.mem_cons,hne,hmem,or_self,if_false,List.cons_append]

theorem map_path_keepDirs (paths : List Path) (l : List ModuleDir) :
    (paths.foldl (fun l path => keepDir path l) l).map (·.path) =
      l.map (·.path) ++ (paths.filter (· ∉ l.map (·.path))).eraseDups := by
  induction paths generalizing l with
  | nil => simp
  | cons path paths ih =>
    rw [List.foldl_cons,ih,map_path_keepDir]
    by_cases hmem : path ∈ l.map (·.path)
    · rw [if_pos hmem,List.filter_cons_of_neg (by simpa using hmem)]
    · rw [if_neg hmem,List.filter_cons_of_pos (by simpa using hmem),List.eraseDups_cons,List.append_assoc,
        List.singleton_append,List.filter_filter]
      congr 3
      apply List.filter_congr
      intro p _
      rw [Bool.eq_iff_iff]
      simp [and_comm]

theorem mem_keepDir {path : Path} {l : List ModuleDir} (hl : (l.map (·.path)).Nodup) {mdp : ModuleDir}
    (h : mdp ∈ keepDir path l) : (mdp.path = path ∧ mdp.removed = false) ∨ (mdp.path ≠ path ∧ mdp ∈ l) := by
  induction l with
  | nil =>
    obtain rfl := List.mem_singleton.mp h
    exact .inl ⟨rfl,rfl⟩
  | cons first l ih =>
    rw [List.map_cons,List.nodup_cons] at hl
    rw [keepDir] at h
    split_ifs at h with heq
    · obtain rfl | hmem := List.mem_cons.mp h
      · exact .inl ⟨heq,rfl⟩
      · refine .inr ⟨fun hpath => hl.1 ?_,List.mem_cons_of_mem _ hmem⟩
        exact List.mem_map.mpr ⟨mdp,hmem,hpath.trans heq.symm⟩
    · obtain rfl | hmem := List.mem_cons.mp h
      · exact .inr ⟨heq,List.mem_cons_self⟩
      · obtain hnew | ⟨hne,hold⟩ := ih hl.2 hmem
        · exact .inl hnew
        · exact .inr ⟨hne,List.mem_cons_of_mem _ hold⟩

theorem nodup_keepDirs (paths : List Path) {l : List ModuleDir} (hl : (l.map (·.path)).Nodup) :
    ((paths.foldl (fun l path => keepDir path l) l).map (·.path)).Nodup := by
  rw [map_path_keepDirs]
  refine List.Nodup.append hl (nodup_eraseDups _) ?_
  intro p hold hnew
  rw [List.mem_eraseDups,List.mem_filter] at hnew
  exact absurd hold (by simpa using hnew.2)

/-- The directories that are still marked are those that were not gone through. -/
theorem removed_keepDirs (paths : List Path) {l : List ModuleDir} (hl : (l.map (·.path)).Nodup)
    (hmark : ∀ mdp ∈ l, mdp.removed = true) {mdp : ModuleDir}
    (h : mdp ∈ paths.foldl (fun l path => keepDir path l) l) : mdp.removed = true ↔ mdp.path ∉ paths := by
  induction paths using List.reverseRecOn generalizing mdp with
  | nil => simpa using hmark mdp h
  | append_singleton paths path ih =>
    rw [List.foldl_append,List.foldl_cons,List.foldl_nil] at h
    obtain ⟨hpath,hrem⟩ | ⟨hne,hmem⟩ := mem_keepDir (nodup_keepDirs paths hl) h
    · simp [hpath,hrem]
    · simp [ih hmem,hne]

theorem map_path_rebuild (env : Settings) {l : List ModuleDir} (hl : (l.map (·.path)).Nodup) :
    (moduledirRebuild env l).map (·.path) = update (l.map (·.path)) (wantedPaths env).eraseDups := by
  obtain ⟨marked,hmarked⟩ : ∃ marked, marked = l.map fun mdp => {mdp with removed := true} := ⟨_,rfl⟩
  have hpaths : marked.map (·.path) = l.map (·.path) := by
    rw [hmarked,List.map_map]
    rfl
  have hmark : ∀ mdp ∈ marked, mdp.removed = true := by
    intro mdp hmem
    rw [hmarked] at hmem
    obtain ⟨old,-,rfl⟩ := List.mem_map.mp hmem
    rfl
  have hsweep : ∀ mdp ∈ (wantedPaths env).foldl (fun l path => keepDir path l) marked,
      (!mdp.removed) = decide (mdp.path ∈ wantedPaths env) := by
    intro mdp hmem
    have hrem := removed_keepDirs _ (hpaths ▸ hl) hmark hmem
    rw [Bool.eq_iff_iff,decide_eq_true_iff,← not_iff_not,← hrem]
    simp
  rw [moduledirRebuild,← hmarked,List.filter_congr hsweep]
  have hmap : ∀ l' : List ModuleDir, (l'.filter fun mdp => decide (mdp.path ∈ wantedPaths env)).map (·.path) =
      (l'.map (·.path)).filter (· ∈ wantedPaths env) := by
    intro l'
    rw [List.filter_map]
    rfl
  rw [hmap,map_path_keepDirs,hpaths,List.filter_append,update,eraseDups_filter,List.filter_filter]
  congr 1
  · apply List.filter_congr
    simp
  · apply List.filter_congr
    intro p hp
    rw [List.mem_eraseDups] at hp
    simp [hp]

end Rebuild

section Settings

theorem modifyHead_self (pieces : List Path) : pieces.modifyHead (fun l => l) = pieces := by
  cases pieces <;> rfl

theorem withoutEmptyLast_cons (cp : Path) {pieces : List Path} (h : pieces ≠ []) :
    withoutEmptyLast (cp :: pieces) = cp :: withoutEmptyLast pieces := by
  obtain ⟨first,rest,rfl⟩ := List.exists_cons_of_ne_nil h
  simp only [withoutEmptyLast,List.getLast?_cons_cons,List.dropLast_cons_cons]
  split_ifs <;> rfl

theorem pathPieces_eq (path : Path) {cp : Path} (h : cp ≠ [] ∨ path ≠ []) :
    pathPieces cp path = withoutEmptyLast ((path.splitOn semicolon).modifyHead (cp ++ ·)) := by
  induction path generalizing cp with
  | nil =>
    have hcp : cp ≠ [] := h.resolve_right (not_not.mpr rfl)
    simp [pathPieces,withoutEmptyLast,hcp]
  | cons c ep ih =>
    have hne := List.splitOn_ne_nil semicolon ep
    rw [pathPieces,List.splitOn_cons_eq_if_modifyHead]
    by_cases hc : c = semicolon
    · simp only [hc,beq_self_eq_true,if_true,List.modifyHead_cons,List.append_nil]
      rw [withoutEmptyLast_cons cp hne]
      by_cases hep : ep = []
      · simp [hep,withoutEmptyLast]
      · rw [if_neg hep,ih (.inr hep)]
        simp only [List.nil_append]
        rw [modifyHead_self]
    · rw [if_neg hc,if_neg (by simpa using hc),ih (.inl (by simp)),List.modifyHead_modifyHead]
      congr 2
      funext l
      simp

theorem listedPaths_nil : listedPaths [] = [] := by
  simp [listedPaths,withoutEmptyLast]

theorem wantedPaths_eq (env : Settings) : (wantedPaths env).eraseDups = settingDirs env := by
  have hlisted : ∀ path : Path, (if path = [] then [] else (pathPieces [] path).map fun cp => cp.take (trimmed cp cp.length)) =
      (listedPaths path).map stripped := by
    intro path
    by_cases hpath : path = []
    · rw [if_pos hpath,hpath,listedPaths_nil,List.map_nil]
    · rw [if_neg hpath,pathPieces_eq path (.inr hpath),listedPaths]
      simp only [List.nil_append,modifyHead_self]
      rfl
  rw [wantedPaths,settingDirs]
  simp only [hlisted,List.eraseDups_append]
  by_cases hlocal : env.localModules = some yes
  · by_cases hmem : localModulePath ∈ (listedPaths (env.modulePath.getD defaultSearchpath)).map stripped
    · simp only [List.removeAll,hlocal,List.mem_eraseDups,hmem,not_true_eq_false,and_false,if_true,if_false]
      rw [List.filter_cons_of_neg (by simpa using hmem)]
      simp
    · simp only [List.removeAll,hlocal,List.mem_eraseDups,hmem,not_false_eq_true,and_self,if_true]
      rw [List.filter_cons_of_pos (by simpa using hmem)]
      rfl
  · simp [hlocal]

end Settings

section Runs
variable {hintsVersion : ℕ}

theorem readhints_path (file : Option (ℕ × List UInt8)) (mdp : ModuleDir) :
    (moduledirReadhints hintsVersion file mdp).path = mdp.path := by
  simp only [moduledirReadhints]
  split_ifs
  · rfl
  · split
    · rfl
    · split_ifs <;> rfl

theorem search_dirs (s : DirState) (looked : ℕ) (files : Path → Option (ℕ × List UInt8)) :
    (dirStep hintsVersion s (.search looked files)).2.dirs.map (·.path) = (moduledirRebuild s.env s.dirs).map (·.path) := by
  simp only [dirStep,List.map_append,List.map_map,Function.comp_def,readhints_path]
  rw [← List.map_append,List.take_append_drop]

/-- Every search goes through the directories of its settings, in their order, exactly when each keeps a beginning. -/
theorem answers_eq_iff (calls : List DirCall) {env : Settings} {dirs : List ModuleDir} (hd : (dirs.map (·.path)).Nodup) :
    answers (dirStep hintsVersion) ⟨env,dirs⟩ calls = answers specStep env calls ↔
      Aligned (dirs.map (·.path)) env calls := by
  induction calls generalizing env dirs with
  | nil => simp [answers,Aligned]
  | cons call calls ih =>
    cases call with
    | setPath value =>
      simp only [answers,dirStep,specStep,Aligned,List.cons.injEq,true_and]
      exact ih hd
    | setLocal value =>
      simp only [answers,dirStep,specStep,Aligned,List.cons.injEq,true_and]
      exact ih hd
    | search looked files =>
      have hnew : (settingDirs env).Nodup := wantedPaths_eq env ▸ nodup_eraseDups _
      have hrebuild := map_path_rebuild env hd
      rw [wantedPaths_eq] at hrebuild
      have hdirs := @search_dirs hintsVersion ⟨env,dirs⟩ looked files
      obtain ⟨s',hs'⟩ : ∃ s', (dirStep hintsVersion ⟨env,dirs⟩ (.search looked files)).2 = s' := ⟨_,rfl⟩
      rw [hs',hrebuild] at hdirs
      have henv : s'.env = env := hs' ▸ rfl
      have hanswer : (dirStep hintsVersion ⟨env,dirs⟩ (.search looked files)).1 =
          some (update (dirs.map (·.path)) (settingDirs env)) := congrArg some hrebuild
      rw [answers,answers,Aligned,List.cons.injEq,hs',hanswer,← update_eq_iff hnew]
      simp only [specStep,Option.some.injEq]
      refine and_congr_right fun heq => ?_
      rw [heq] at hdirs
      have hstate : s' = ⟨env,s'.dirs⟩ := by rw [← henv]
      have hrest := @ih env s'.dirs (hdirs ▸ hnew)
      rwa [hdirs,← hstate] at hrest

/-- The state after the calls. -/
def stateAfter (hintsVersion : ℕ) (s : DirState) (calls : List DirCall) : DirState :=
  calls.foldl (fun s call => (dirStep hintsVersion s call).2) s

theorem specStep_after (s : DirState) (calls : List DirCall) :
    calls.foldl (fun env call => (specStep env call).2) s.env = (stateAfter hintsVersion s calls).env := by
  induction calls generalizing s with
  | nil => rfl
  | cons call calls ih =>
    rw [stateAfter,List.foldl_cons,List.foldl_cons,← stateAfter,← ih]
    cases call <;> rfl

theorem rebuild_of_aligned (env : Settings) (calls : List DirCall) {looked : ℕ} {files : Path → Option (ℕ × List UInt8)}
    (h : Aligned [] env (calls ++ [.search looked files])) :
    (moduledirRebuild (stateAfter hintsVersion ⟨env,[]⟩ calls).env (stateAfter hintsVersion ⟨env,[]⟩ calls).dirs).map (·.path) =
      settingDirs (stateAfter hintsVersion ⟨env,[]⟩ calls).env := by
  have hall := (@answers_eq_iff hintsVersion _ _ [] List.nodup_nil).mpr h
  rw [answers_append,answers_append] at hall
  obtain ⟨-,hlast⟩ := List.append_inj' hall rfl
  rw [@specStep_after hintsVersion ⟨env,[]⟩ calls] at hlast
  exact Option.some.inj (List.head_eq_of_cons_eq hlast)

/-- Every search of a run goes through the directories of its settings exactly when the searches are aligned, and then two
runs with the same settings at the end search the same directories. -/
theorem searches_by_settings_iff (hintsVersion : ℕ) (env : Settings) (calls : List DirCall) :
    (answers (dirStep hintsVersion) ⟨env,[]⟩ calls = answers specStep env calls ↔ Aligned [] env calls) ∧
    ∀ (env' : Settings) (calls' : List DirCall) (looked looked' : ℕ) (files files' : Path → Option (ℕ × List UInt8))
      (s s' : DirState), s = stateAfter hintsVersion ⟨env,[]⟩ calls → s' = stateAfter hintsVersion ⟨env',[]⟩ calls' →
      s.env = s'.env → Aligned [] env (calls ++ [.search looked files]) →
      Aligned [] env' (calls' ++ [.search looked' files']) →
      (moduledirRebuild s.env s.dirs).map (·.path) = (moduledirRebuild s'.env s'.dirs).map (·.path) := by
  refine ⟨answers_eq_iff calls List.nodup_nil,?_⟩
  rintro env' calls' looked looked' files files' s s' rfl rfl henv h h'
  rw [rebuild_of_aligned env calls h,rebuild_of_aligned env' calls' h',henv]

end Runs

/-- The setting `a`, a search, and the setting `a;b`. -/
def grownRun : List DirCall := [.setPath (some [97]),.search 0 fun _ => none,.setPath (some [97,59,98])]

/-- A search then goes through both directories, in the order it has after the one setting `a;b`. -/
theorem searches_by_settings_grown :
    answers (dirStep 1) ⟨⟨none,none⟩,[]⟩ grownRun = answers specStep ⟨none,none⟩ grownRun ∧
    (moduledirRebuild (stateAfter 1 ⟨⟨none,none⟩,[]⟩ grownRun).env (stateAfter 1 ⟨⟨none,none⟩,[]⟩ grownRun).dirs).map (·.path) =
      (moduledirRebuild (stateAfter 1 ⟨⟨none,none⟩,[]⟩ [.setPath (some [97,59,98])]).env
        (stateAfter 1 ⟨⟨none,none⟩,[]⟩ [.setPath (some [97,59,98])]).dirs).map (·.path) := by
  obtain ⟨hanswers,hsame⟩ := searches_by_settings_iff 1 ⟨none,none⟩ grownRun
  refine ⟨hanswers.mpr ?_,hsame ⟨none,none⟩ [.setPath (some [97,59,98])] 0 0 (fun _ => none) (fun _ => none) _ _ rfl rfl rfl ?_ ?_⟩
  all_goals
    simp only [grownRun,List.cons_append,List.nil_append,Aligned]
    decide

/-- The setting `a;b`, a search, the setting `b;a`, another search. -/
def swappedRun : List DirCall :=
  [.setPath (some [97,59,98]),.search 0 fun _ => none,.setPath (some [98,59,97]),.search 0 fun _ => none]

/-- The second search still goes through `a` first, as no other run with its settings does. -/
theorem search_keeps_order : answers (dirStep 1) ⟨⟨none,none⟩,[]⟩ swappedRun = [none,some [[97],[98]],none,some [[97],[98]]] ∧
    answers specStep ⟨none,none⟩ swappedRun = [none,some [[97],[98]],none,some [[98],[97]]] ∧
    answers (dirStep 1) ⟨⟨none,none⟩,[]⟩ [.setPath (some [98,59,97]),.search 0 fun _ => none] = [none,some [[98],[97]]] := by
  decide

end Blub.Boot.Mod
