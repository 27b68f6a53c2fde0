import Blub.Boot.FsfindSpec
import Mathlib.Data.List.TakeWhile

/-! Which files `boot2_ufs_lookup` finds. A deleted record with the name of a live one before it stops the walk, as do
two slashes in a row. -/
namespace Blub.Boot
open Blub.Bytes Blub.Stand

section Paths

/-- The first component of a path and what follows it. -/
theorem path_head (path : List UInt8) :
    slash ∉ path.takeWhile (· ≠ slash) ∧ (path.dropWhile (· ≠ slash) = [] ∨
      ∃ l, path.dropWhile (· ≠ slash) = slash :: l) := by
  constructor
  · intro h
    simpa using List.mem_takeWhile_imp h
  · cases hrest : path.dropWhile (· ≠ slash) with
    | nil => exact Or.inl rfl
    | cons c l =>
      have hc := List.head?_dropWhile_not (· ≠ slash) path
      rw [hrest] at hc
      refine Or.inr ⟨l,?_⟩
      rw [show c = slash by simpa using hc]

variable {name path rest l : List UInt8}

theorem components_slash (path : List UInt8) : components (slash :: path) = components path := by
  rw [components,List.splitOn_cons_eq_if_modifyHead,if_pos (by simp),components]
  simp

/-- The components of a path that begins with a name. -/
theorem components_name (hname : slash ∉ name) (hne : name ≠ []) (hrest : rest = [] ∨ ∃ l, rest = slash :: l) :
    components (name ++ rest) = name :: components rest := by
  obtain rfl | ⟨l,rfl⟩ := hrest
  · rw [List.append_nil,components,List.splitOn_eq_singleton hname]
    simp [components,hne]
  · rw [components_slash,components,List.splitOn_append_cons_self_of_not_mem hname,
      List.filter_cons_of_pos (by simpa),components]

theorem last_slash (path : List UInt8) :
    ((slash :: path).splitOn slash).getLast? = (path.splitOn slash).getLast? := by
  rw [List.splitOn_cons_eq_if_modifyHead,if_pos (by simp),List.getLast?_cons]
  obtain ⟨c,l,hl⟩ := List.exists_cons_of_ne_nil (List.splitOn_ne_nil slash path)
  simp [hl,List.getLast?_cons]

theorem last_name (hname : slash ∉ name) (l : List UInt8) :
    ((name ++ slash :: l).splitOn slash).getLast? = ((slash :: l).splitOn slash).getLast? := by
  rw [List.splitOn_append_cons_self_of_not_mem hname,last_slash,List.getLast?_cons]
  obtain ⟨c,l',hl⟩ := List.exists_cons_of_ne_nil (List.splitOn_ne_nil slash l)
  simp [hl,List.getLast?_cons]

/-- Two slashes in a row are not in a name. -/
theorem slashes_name (hname : slash ∉ name) : [slash,slash] <:+: name ++ rest ↔ [slash,slash] <:+: rest := by
  induction name with
  | nil => rfl
  | cons c name ih =>
    rw [List.mem_cons,not_or] at hname
    rw [List.cons_append,List.infix_cons_iff,ih hname.2,or_iff_right]
    intro h
    exact hname.1 (List.cons_prefix_cons.mp h).1

end Paths

section Records
variable {fs : Ufs1} {ino : ℕ} {chunks : List (List Dirent)}

theorem DirAt.names (hd : DirAt fs.toUfs1Super ino chunks) : ∀ e ∈ chunks.flatten, e.name.length ≤ maxnamlen ∧
    (e.Live → e.name ≠ []) := by
  intro e he
  obtain ⟨l,hl,hel⟩ := List.mem_flatten.mp he
  obtain ⟨k,hk,rfl⟩ := List.mem_iff_getElem.mp hl
  exact (hd.records k hk).names e hel

theorem DirAt.length_lt (hd : DirAt fs.toUfs1Super ino chunks) : chunks.length < 2^22 := by
  have hsize := hd.size
  have hsmall := hd.small
  rw [hsize,devBsize] at hsmall
  omega

/-- The first live entry with a name is such an entry. -/
theorem liveEntry_some {l : List Dirent} {name : List UInt8} {e : Dirent} (h : liveEntry l name = some e) :
    e ∈ l ∧ e.Live ∧ e.name = name := by
  have hp := List.find?_some h
  rw [decide_eq_true_iff] at hp
  exact ⟨List.mem_of_find?_eq_some h,hp⟩

theorem taken_some {l : List Dirent} {ls : Bool} {name : List UInt8} {d : Dirent} :
    taken ls name l = some d ↔ ls = false ∧ d.name = name ∧ ∃ l₁ l₂, l = l₁ ++ d :: l₂ ∧ ∀ d' ∈ l₁, d'.name ≠ name := by
  rw [taken,List.find?_eq_some_iff_append]
  cases ls <;> simp

theorem readable_prefix (fs : Ufs1Super) (chunks : List (List Dirent)) :
    ∃ l, chunks.flatten = (fs.readable chunks).flatten ++ l := by
  refine ⟨(chunks.drop (fs.reach/devBsize)).flatten,?_⟩
  rw [Ufs1Super.readable,← List.flatten_append,List.take_append_drop]

/-- The first record with a name is the live entry if it is live. -/
theorem taken_live {name : List UInt8} {d : Dirent} (h : taken false name (fs.readable chunks).flatten = some d)
    (hd : d.Live) : liveEntry chunks.flatten name = some d := by
  obtain ⟨-,hname,l₁,l₂,heq,hl₁⟩ := taken_some.mp h
  obtain ⟨l,hl⟩ := readable_prefix fs.toUfs1Super chunks
  rw [liveEntry,List.find?_eq_some_iff_append,hl,heq]
  refine ⟨by simpa using ⟨hd,hname⟩,l₁,l₂ ++ l,by simp,?_⟩
  intro d' hd'
  simp [hl₁ d' hd']

/-- Where nothing hides the live entry, it is taken. -/
theorem taken_unhidden {name : List UInt8} {e : Dirent} (hu : fs.Unhidden chunks name)
    (he : liveEntry chunks.flatten name = some e) : taken false name (fs.readable chunks).flatten = some e := by
  rw [Ufs1Super.Unhidden,he] at hu
  obtain ⟨l,l',heq,hl⟩ := hu
  exact taken_some.mpr ⟨rfl,(liveEntry_some he).2.2,l,l',heq,hl⟩

/-- What `fsfind` ought to return: the type and the inode number of the live entry, or the type 0. -/
def FindsLive (chunks : List (List Dirent)) (name : List UInt8) (r : ℕ × ℕ) : Prop :=
  match liveEntry chunks.flatten name with
  | some e => r = (e.type,e.ino)
  | none => r.1 = 0

/-- `fsfind` is right where nothing hides the entry. It is also right where it cannot read the entry and the entry has
what it returns then: no type, and the inode number of the directory. -/
theorem findsLive_iff (name : List UInt8) :
    FindsLive chunks name (foundOf ino (taken false name (fs.readable chunks).flatten)) ↔ fs.Unhidden chunks name ∨
      liveEntry chunks.flatten name = some ⟨ino,0,name⟩ ∧ ∀ d ∈ (fs.readable chunks).flatten, d.name ≠ name := by
  unfold FindsLive Ufs1Super.Unhidden
  cases ht : taken false name (fs.readable chunks).flatten with
  | none =>
    have hnone : ∀ d ∈ (fs.readable chunks).flatten, d.name ≠ name := by
      intro d hd
      simpa using List.find?_eq_none.mp ht d hd
    cases he : liveEntry chunks.flatten name with
    | none =>
      refine ⟨fun _ => Or.inl fun l d l' heq _ hd => absurd hd (hnone d ?_),fun _ => rfl⟩
      simp [heq]
    | some e =>
      dsimp only [foundOf]
      constructor
      · intro h
        obtain ⟨htype,hino⟩ := Prod.mk.inj h
        refine Or.inr ⟨?_,hnone⟩
        rw [← (liveEntry_some he).2.2,hino,htype]
      · rintro (⟨l,l',heq,-⟩ | ⟨heq,-⟩)
        · exact absurd (liveEntry_some he).2.2 (hnone e (by simp [heq]))
        · rw [Option.some.inj heq]
  | some d =>
    obtain ⟨-,hd,l,l',heq,hl⟩ := taken_some.mp ht
    cases he : liveEntry chunks.flatten name with
    | none =>
      refine ⟨fun h => Or.inl fun l₁ d₁ l₁' heq₁ hl₁ hd₁ => ?_,?_⟩
      · have htaken := taken_some.mpr ⟨rfl,hd₁,l₁,l₁',heq₁,hl₁⟩
        rwa [← Option.some.inj (ht.symm.trans htaken)]
      · rintro (h | ⟨h,-⟩)
        · exact h l d l' heq hl hd
        · simp at h
    | some e =>
      dsimp only [foundOf]
      constructor
      · intro h
        obtain ⟨-,hino⟩ := Prod.mk.inj h
        have hlive : d.Live := by
          rw [Dirent.Live,hino]
          exact (liveEntry_some he).2.1
        have hde := Option.some.inj (he.symm.trans (taken_live ht hlive))
        exact Or.inl ⟨l,l',hde ▸ heq,hl⟩
      · rintro (⟨l₁,l₁',heq₁,hl₁⟩ | ⟨-,hnone⟩)
        · have htaken := taken_some.mpr ⟨rfl,(liveEntry_some he).2.2,l₁,l₁',heq₁,hl₁⟩
          rw [Option.some.inj (ht.symm.trans htaken)]
        · exact absurd hd (hnone d (by simp [heq]))

end Records

section Walk
variable {t : Ufs1Tree}

theorem Ufs1Tree.walk_pos {ino dt : ℕ} {l : List (List UInt8)} {r : ℕ × ℕ} (h : t.walk ino dt l = some r)
    (hino : ino ≠ 0) : r.1 ≠ 0 := by
  induction l generalizing ino dt with
  | nil =>
    rw [Ufs1Tree.walk,Option.some_inj] at h
    rwa [← h]
  | cons name l ih =>
    rw [Ufs1Tree.walk] at h
    split_ifs at h
    cases hch : t.dir ino with
    | none =>
      rw [hch] at h
      simp at h
    | some chunks =>
      cases he : liveEntry chunks.flatten name with
      | none => simp [hch,he] at h
      | some e =>
        simp only [hch,he] at h
        exact ih h (liveEntry_some he).2.1

theorem Ufs1Tree.walk_untyped (ino : ℕ) (l : List (List UInt8)) (r : ℕ) : t.walk ino 0 l ≠ some (r,dtReg) := by
  cases l with
  | nil => simp [Ufs1Tree.walk,dtReg]
  | cons name l => simp [Ufs1Tree.walk,dtDir]

/-- After a deleted record the walk is at inode 0, and ends with nothing. -/
theorem lookupLoop_lost {find fuel : ℕ} (hfind : 0 < find) (path : List UInt8) (dt : ℕ) (s : Lookup)
    (hs : BootInv t.toUfs1 s.ufs) (hc : Calm s.ufs) :
    ∃ s', lookupLoop t.toUfs1Super find (fuel+1) path 0 dt s = some (0,s') ∧ BootInv t.toUfs1 s'.ufs ∧ Calm s'.ufs := by
  rw [lookupLoop]
  generalize (if path.head? = some slash then path.tail else path) = p
  dsimp only
  by_cases hp : p = []
  · rw [if_pos hp,ite_self]
    exact ⟨s,rfl,hs,hc⟩
  rw [if_neg hp]
  by_cases hlen : (p.takeWhile (· ≠ slash)).length > maxnamlen
  · rw [if_pos hlen]
    exact ⟨s,rfl,hs,hc⟩
  rw [if_neg hlen]
  by_cases hdt : dt ≠ dtDir
  · rw [if_pos hdt]
    exact ⟨s,rfl,hs,hc⟩
  rw [if_neg hdt]
  obtain ⟨find,rfl⟩ := Nat.exists_eq_succ_of_ne_zero hfind.ne'
  rw [fsfind,fsfindLoop,boot2UfsRead,if_pos rfl]
  exact ⟨_,rfl,⟨hs.dp1,hs.ind,hs.blk⟩,⟨hc.io,hc.blk,hc.ind⟩⟩

/-- A path, and what is left of it after one slash. -/
inductive Stripped : List UInt8 → List UInt8 → Prop
  | cut (l : List UInt8) : Stripped (slash :: l) l
  | same {l : List UInt8} (h : l.head? ≠ some slash) : Stripped l l

theorem stripped (path : List UInt8) : Stripped path (if path.head? = some slash then path.tail else path) := by
  by_cases h : path.head? = some slash
  · rw [if_pos h]
    obtain ⟨c,l,rfl⟩ := List.exists_cons_of_ne_nil (by rintro rfl; simp at h : path ≠ [])
    obtain rfl : c = slash := by simpa using h
    exact .cut l
  · rw [if_neg h]
    exact .same h

variable {path p : List UInt8}

theorem Stripped.comps (h : Stripped path p) : components path = components p := by
  cases h with
  | cut => exact components_slash _
  | same => rfl

theorem Stripped.last (h : Stripped path p) : (path.splitOn slash).getLast? = (p.splitOn slash).getLast? := by
  cases h with
  | cut => exact last_slash _
  | same => rfl

theorem Stripped.length (h : Stripped path p) :
    p.length ≤ path.length ∧ (p.head? = some slash → p.length < path.length) := by
  cases h with
  | cut => simp
  | same h => exact ⟨le_rfl,fun h' => absurd h' h⟩

theorem Stripped.mem (h : Stripped path p) {c : UInt8} (hc : c ∈ p) : c ∈ path := by
  cases h with
  | cut => exact List.mem_cons_of_mem _ hc
  | same => exact hc

/-- No two slashes are in a path if what is left does not begin with one, and has none. -/
theorem Stripped.slashes (h : Stripped path p) :
    [slash,slash] <:+: path ↔ p.head? = some slash ∨ [slash,slash] <:+: p := by
  cases h with
  | cut =>
    rw [List.infix_cons_iff]
    cases p with
    | nil => simp
    | cons c l => simp [eq_comm]
  | same h => rw [or_iff_right h]

/-- What is to be shown of `boot2_ufs_lookup`, from an inode of a type on: it returns an inode number other than 0 just
where the walk leads to a regular file along a plain path, and then it is that of the file. -/
def LooksUp (t : Ufs1Tree) (ino dt : ℕ) (path : List UInt8) (r : ℕ) : Prop :=
  (r ≠ 0 → t.walk ino dt (components path) = some (r,dtReg) ∧ t.Plain ino path) ∧
    (t.Plain ino path → ∀ r', t.walk ino dt (components path) = some (r',dtReg) → r = r')

theorem LooksUp.zero {ino dt : ℕ} (h : t.Plain ino path → ∀ r', t.walk ino dt (components path) ≠ some (r',dtReg)) :
    LooksUp t ino dt path 0 := by
  exact ⟨fun h₀ => absurd rfl h₀,fun hp r' hw => absurd hw (h hp r')⟩

variable {name rest : List UInt8}

/-- A path that is left with a name in front. -/
structure Headed (path name rest : List UInt8) : Prop where
  nosep : slash ∉ name
  next : rest = [] ∨ ∃ l, rest = slash :: l
  ne : name ++ rest ≠ []
  stripped : Stripped path (name ++ rest)

theorem Headed.empty (h : Headed path [] rest) : [slash,slash] <:+: path := by
  rw [h.stripped.slashes]
  obtain rfl | ⟨l,rfl⟩ := h.next
  · exact absurd rfl h.ne
  · exact Or.inl rfl

theorem Headed.comps (h : Headed path name rest) (hne : name ≠ []) : components path = name :: components rest := by
  rw [h.stripped.comps,components_name h.nosep hne h.next]

theorem Headed.slashes (h : Headed path name rest) (hne : name ≠ []) :
    [slash,slash] <:+: path ↔ [slash,slash] <:+: rest := by
  rw [h.stripped.slashes,slashes_name h.nosep,or_iff_right]
  obtain ⟨c,l,rfl⟩ := List.exists_cons_of_ne_nil hne
  intro hc
  exact h.nosep (by simp_all)

theorem Headed.length (h : Headed path name rest) : rest.length < path.length := by
  have hlen := h.stripped.length
  cases name with
  | nil =>
    obtain rfl | ⟨l,rfl⟩ := h.next
    · exact absurd rfl h.ne
    · exact hlen.2 rfl
  | cons c name =>
    rw [List.length_append,List.length_cons] at hlen
    omega

/-- Only at the end of a path can the component be `?`. -/
theorem Headed.last (h : Headed path name rest) : (path.splitOn slash).getLast? = some [quest] ↔
    (rest = [] ∧ name = [quest]) ∨ (rest.splitOn slash).getLast? = some [quest] := by
  rw [h.stripped.last]
  obtain rfl | ⟨l,rfl⟩ := h.next
  · rw [List.append_nil,List.splitOn_eq_singleton h.nosep,List.splitOn_eq_singleton (by simp)]
    simp
  · rw [last_name h.nosep]
    simp

/-- On a plain path nothing hides the first name. -/
theorem Headed.unhidden (h : Headed path name rest) {ino : ℕ} {chunks : List (List Dirent)}
    (hdir : t.dir ino = some chunks) (hp : t.Plain ino path) :
    name ≠ [] ∧ ¬(rest = [] ∧ name = [quest]) ∧ t.Unhidden chunks name := by
  have hne : name ≠ [] := by
    rintro rfl
    exact hp.slashes h.empty
  have hclear := hp.clear
  rw [h.comps hne] at hclear
  exact ⟨hne,fun hq => hp.last (h.last.mpr (Or.inl hq)),(hclear chunks hdir).1⟩

/-- And what follows it is plain from the live entry on. -/
theorem Headed.plain (h : Headed path name rest) (hne : name ≠ []) {ino : ℕ} {chunks : List (List Dirent)} {e : Dirent}
    (hdir : t.dir ino = some chunks) (he : liveEntry chunks.flatten name = some e) :
    t.Plain ino path ↔ (¬(rest = [] ∧ name = [quest]) ∧ t.Unhidden chunks name) ∧ t.Plain e.ino rest := by
  have hclear : t.Clear ino (components path) ↔ t.Unhidden chunks name ∧ t.Clear e.ino (components rest) := by
    rw [h.comps hne,Ufs1Tree.Clear]
    constructor
    · intro hc
      exact ⟨(hc chunks hdir).1,(hc chunks hdir).2 e he⟩
    · rintro ⟨hu,hc⟩ chunks' hdir'
      obtain rfl := Option.some.inj (hdir.symm.trans hdir')
      refine ⟨hu,fun e' he' => ?_⟩
      rwa [← Option.some.inj (he.symm.trans he')]
  constructor
  · intro hp
    have hq := hp.last
    rw [ne_eq,h.last,not_or] at hq
    exact ⟨⟨hq.1,(hclear.mp hp.clear).1⟩,⟨fun hs => hp.slashes ((h.slashes hne).mpr hs),hq.2,(hclear.mp hp.clear).2⟩⟩
  · rintro ⟨⟨hq,hu⟩,hp⟩
    refine ⟨fun hs => hp.slashes ((h.slashes hne).mp hs),?_,hclear.mpr ⟨hu,hp.clear⟩⟩
    rw [ne_eq,h.last,not_or]
    exact ⟨hq,hp.last⟩

/-- The walk takes the live entry. -/
theorem Headed.walk (h : Headed path name rest) (hne : name ≠ []) {ino : ℕ} {chunks : List (List Dirent)}
    (hdir : t.dir ino = some chunks) : t.walk ino dtDir (components path) =
      (liveEntry chunks.flatten name).bind fun e => t.walk e.ino e.type (components rest) := by
  rw [h.comps hne,Ufs1Tree.walk,if_pos rfl,hdir]
  dsimp only
  cases liveEntry chunks.flatten name <;> rfl

/-- Where the path ends, the inode is returned if it is that of a regular file. -/
theorem LooksUp.ended (h : Stripped path []) (t : Ufs1Tree) (ino dt : ℕ) :
    LooksUp t ino dt path (if dt = dtReg then ino else 0) := by
  have hcomp : components path = [] := h.comps
  have hplain : t.Plain ino path := by
    refine ⟨?_,?_,?_⟩
    · rw [h.slashes]
      simp
    · rw [h.last]
      simp
    · rw [hcomp]
      trivial
  rw [LooksUp,hcomp,Ufs1Tree.walk]
  by_cases hdt : dt = dtReg
  · rw [if_pos hdt,hdt]
    exact ⟨fun _ => ⟨rfl,hplain⟩,fun _ r' h => congrArg Prod.fst (Option.some.inj h)⟩
  · rw [if_neg hdt]
    exact ⟨fun h => absurd rfl h,fun _ r' h => absurd (congrArg Prod.snd (Option.some.inj h)) hdt⟩

/-- Nothing lies below an inode that is no directory. -/
theorem Headed.noDir (h : Headed path name rest) {ino dt : ℕ} (hdt : dt ≠ dtDir) : LooksUp t ino dt path 0 := by
  refine LooksUp.zero fun hpl r' hw => ?_
  have hne : name ≠ [] := by
    rintro rfl
    exact hpl.slashes h.empty
  rw [h.comps hne,Ufs1Tree.walk,if_neg hdt] at hw
  cases hw

/-- No entry has a name that is too long. -/
theorem Headed.tooLong (h : Headed path name rest) (hlen : name.length > maxnamlen) {ino dt : ℕ}
    (hdir : dt = dtDir → (t.dir ino).isSome) : LooksUp t ino dt path 0 := by
  by_cases hdt : dt = dtDir
  · refine LooksUp.zero fun _ r' hw => ?_
    have hne : name ≠ [] := by
      rintro rfl
      exact absurd hlen (Nat.not_lt_zero _)
    obtain ⟨chunks,hch⟩ := Option.isSome_iff_exists.mp (hdir hdt)
    rw [hdt,h.walk hne hch,Option.bind_eq_some_iff] at hw
    obtain ⟨e,he,-⟩ := hw
    obtain ⟨hmem,-,rfl⟩ := liveEntry_some he
    exact absurd ((t.dirAt ino chunks hch).names e hmem).1 (by omega)
  · exact h.noDir hdt

/-- Where the walk of a plain path goes on, the first entry of the name is the live one. -/
theorem Headed.takes (h : Headed path name rest) {ino : ℕ} {chunks : List (List Dirent)} (hch : t.dir ino = some chunks)
    (hpl : t.Plain ino path) {q : ℕ × ℕ} (hw : t.walk ino dtDir (components path) = some q) :
    ∃ e, liveEntry chunks.flatten name = some e ∧ taken false name (t.readable chunks).flatten = some e ∧
      t.walk e.ino e.type (components rest) = some q := by
  obtain ⟨hne,-,hu⟩ := h.unhidden hch hpl
  rw [h.walk hne hch,Option.bind_eq_some_iff] at hw
  obtain ⟨e,he,hw⟩ := hw
  exact ⟨e,he,taken_unhidden hu he,hw⟩

/-- The listing of a directory by `?` takes no entry, and is on no plain path. -/
theorem Headed.missed (h : Headed path name rest) {ino : ℕ} {chunks : List (List Dirent)} (hch : t.dir ino = some chunks)
    {ls : Bool} (hls : ls = true → rest = [] ∧ name = [quest]) (ht : taken ls name (t.readable chunks).flatten = none) :
    LooksUp t ino dtDir path 0 := by
  refine LooksUp.zero fun hpl r' hw => ?_
  obtain ⟨e,-,htake,-⟩ := h.takes hch hpl hw
  obtain rfl : ls = false := Bool.eq_false_iff.mpr (mt hls (h.unhidden hch hpl).2.1)
  rw [htake] at ht
  cases ht

/-- An entry of type 0 leads to no regular file. -/
theorem Headed.untyped (h : Headed path name rest) {ino : ℕ} {chunks : List (List Dirent)} (hch : t.dir ino = some chunks)
    {d : Dirent} (ht : taken false name (t.readable chunks).flatten = some d) (htype : d.type = 0) :
    LooksUp t ino dtDir path 0 := by
  refine LooksUp.zero fun hpl r' hw => ?_
  obtain ⟨e,-,htake,hw⟩ := h.takes hch hpl hw
  obtain rfl := Option.some.inj (htake.symm.trans ht)
  rw [htype] at hw
  exact t.walk_untyped _ _ _ hw

/-- A path that a deleted entry is taken for is not plain. -/
theorem Headed.deleted (h : Headed path name rest) {ino : ℕ} {chunks : List (List Dirent)} (hch : t.dir ino = some chunks)
    {d : Dirent} (ht : taken false name (t.readable chunks).flatten = some d) (hdead : ¬d.Live) :
    LooksUp t ino dtDir path 0 := by
  refine LooksUp.zero fun hpl r' hw => ?_
  obtain ⟨e,he,htake,-⟩ := h.takes hch hpl hw
  obtain rfl := Option.some.inj (htake.symm.trans ht)
  exact hdead (liveEntry_some he).2.1

/-- Behind a live entry the walk is that of the rest. -/
theorem Headed.live (h : Headed path name rest) {ino : ℕ} {chunks : List (List Dirent)} (hch : t.dir ino = some chunks)
    (hq : ¬(rest = [] ∧ name = [quest])) {d : Dirent} (ht : taken false name (t.readable chunks).flatten = some d)
    (hlive : d.Live) {r : ℕ} (hlook : LooksUp t d.ino d.type rest r) : LooksUp t ino dtDir path r := by
  have he := taken_live ht hlive
  obtain ⟨-,hname,l,l',heq,hl⟩ := taken_some.mp ht
  have hne : name ≠ [] := by
    rw [← hname]
    exact ((t.dirAt ino chunks hch).names d (liveEntry_some he).1).2 hlive
  have hu : t.Unhidden chunks name := by
    rw [Ufs1Super.Unhidden,he]
    exact ⟨l,l',heq,hl⟩
  have hplain := h.plain hne hch he
  rw [LooksUp,h.walk hne hch,he,Option.bind_some]
  exact ⟨fun hr => ⟨(hlook.1 hr).1,hplain.mpr ⟨⟨hq,hu⟩,(hlook.1 hr).2⟩⟩,fun hp => hlook.2 (hplain.mp hp).2⟩

theorem listing_iff {p name rest : List UInt8} (hp : name ++ rest = p) :
    p.head? = some quest ∧ name.length = 1 ∧ rest = [] ↔ rest = [] ∧ name = [quest] := by
  subst hp
  constructor
  · rintro ⟨hhead,hone,rfl⟩
    obtain ⟨c,rfl⟩ := List.length_eq_one_iff.mp hone
    exact ⟨rfl,by simpa using hhead⟩
  · rintro ⟨rfl,rfl⟩
    exact ⟨rfl,rfl,rfl⟩

/-- The walk of `boot2_ufs_lookup`, component by component. -/
theorem lookupLoop_spec {find : ℕ} (hfind : 2^22 ≤ find) (fuel : ℕ) {path : List UInt8} (hz : 0 ∉ path)
    (hfuel : path.length < fuel) {ino dt : ℕ} (hdir : dt = dtDir → (t.dir ino).isSome) {s : Lookup}
    (hs : BootInv t.toUfs1 s.ufs) (hc : Calm s.ufs) :
    ∃ r s', lookupLoop t.toUfs1Super find fuel path ino dt s = some (r,s') ∧ BootInv t.toUfs1 s'.ufs ∧ Calm s'.ufs ∧
      LooksUp t ino dt path r := by
  induction fuel generalizing path ino dt s with
  | zero => omega
  | succ fuel ih =>
    rw [lookupLoop]
    have hstrip := stripped path
    generalize (if path.head? = some slash then path.tail else path) = p at *
    dsimp only
    by_cases hp : p = []
    · rw [if_pos hp]
      subst hp
      exact ⟨_,s,rfl,hs,hc,LooksUp.ended hstrip t ino dt⟩
    rw [if_neg hp]
    obtain ⟨hslash,hrest⟩ := path_head p
    have happ : p.takeWhile (· ≠ slash) ++ p.dropWhile (· ≠ slash) = p := List.takeWhile_append_dropWhile
    generalize p.takeWhile (· ≠ slash) = name at *
    have hzp : 0 ∉ p := fun h0 => hz (hstrip.mem h0)
    generalize p.dropWhile (· ≠ slash) = rest at *
    subst happ
    have hh : Headed path name rest := ⟨hslash,hrest,hp,hstrip⟩
    by_cases hlen : name.length > maxnamlen
    · rw [if_pos hlen]
      exact ⟨0,s,rfl,hs,hc,hh.tooLong hlen hdir⟩
    rw [if_neg hlen]
    by_cases hdt : dt = dtDir
    · subst hdt
      rw [if_neg (by simp)]
      obtain ⟨chunks,hch⟩ := Option.isSome_iff_exists.mp (hdir rfl)
      have hd := t.dirAt ino chunks hch
      have hzn : 0 ∉ name := fun h0 => hzp (List.mem_append_left _ h0)
      obtain ⟨s₁,hrun,hs₁,hc₁⟩ := fsfind_spec hd hzn
        (decide ((name ++ rest).head? = some quest ∧ name.length = 1 ∧ rest = [])) hs hc
        (lt_of_lt_of_le hd.length_lt hfind)
      have hls := @listing_iff (name ++ rest) name rest rfl
      rw [hrun]
      cases ht : taken (decide ((name ++ rest).head? = some quest ∧ name.length = 1 ∧ rest = [])) name
          (t.readable chunks).flatten with
      | none => exact ⟨0,s₁,rfl,hs₁,hc₁,hh.missed hch (fun h => hls.mp (of_decide_eq_true h)) ht⟩
      | some d =>
        obtain ⟨hfalse,-⟩ := taken_some.mp ht
        rw [hfalse] at ht
        rw [foundOf]
        dsimp only
        by_cases hdtype : d.type = 0
        · rw [if_pos hdtype,hdtype]
          exact ⟨0,s₁,rfl,hs₁,hc₁,hh.untyped hch ht hdtype⟩
        rw [if_neg hdtype]
        have hzr : 0 ∉ rest := fun h0 => hzp (List.mem_append_right _ h0)
        have hshort := hh.length
        by_cases hlive : d.Live
        · have hmem := (liveEntry_some (taken_live ht hlive)).1
          obtain ⟨r,s₂,hrun₂,hs₂,hc₂,hlook⟩ := ih hzr (by omega) (fun h => t.sub ino chunks hch d hmem hlive h) hs₁ hc₁
          exact ⟨r,s₂,hrun₂,hs₂,hc₂,hh.live hch (fun h => of_decide_eq_false hfalse (hls.mpr h)) ht hlive hlook⟩
        · -- the record was deleted, and the walk is lost
          have hzero : d.ino = 0 := not_not.mp hlive
          rw [hzero]
          obtain ⟨fuel,rfl⟩ := Nat.exists_eq_succ_of_ne_zero (by omega : fuel ≠ 0)
          obtain ⟨s₂,hrun₂,hs₂,hc₂⟩ := @lookupLoop_lost t find fuel (by omega) rest d.type s₁ hs₁ hc₁
          exact ⟨0,s₂,hrun₂,hs₂,hc₂,hh.deleted hch ht hlive⟩
    · rw [if_pos hdt]
      exact ⟨0,s,rfl,hs,hc,hh.noDir hdt⟩

/-- `fsfind` returns the live entry where no deleted one hides it. `boot2_ufs_lookup` returns no inode number but that of
the regular file which the path names, and returns that one just where the path is plain. -/
theorem boot2_ufs_lookup_iff (t : Ufs1Tree) {s : Lookup} (hs : BootInv t.toUfs1 s.ufs) (hc : Calm s.ufs) {find : ℕ}
    (hfind : 2^22 ≤ find) :
    (∀ ino chunks name, t.dir ino = some chunks → 0 ∉ name →
      ∃ r s', fsfind t.toUfs1Super false name ino find s = some (r,s') ∧ BootInv t.toUfs1 s'.ufs ∧ Calm s'.ufs ∧
        (FindsLive chunks name r ↔ t.Unhidden chunks name ∨
          liveEntry chunks.flatten name = some ⟨ino,0,name⟩ ∧ ∀ d ∈ (t.readable chunks).flatten, d.name ≠ name)) ∧
    ∀ path, 0 ∉ path →
      ∃ r s', boot2UfsLookup t.toUfs1Super find path s = some (r,s') ∧ BootInv t.toUfs1 s'.ufs ∧ Calm s'.ufs ∧
        (r ≠ 0 → t.Names path r) ∧
        ((r ≠ 0 ↔ ∃ ino, t.Names path ino) ↔ ((∃ ino, t.Names path ino) → t.Plain rootino path)) := by
  constructor
  · intro ino chunks name hch hname
    have hd := t.dirAt ino chunks hch
    obtain ⟨s',hrun,hs',hc'⟩ := fsfind_spec hd hname false hs hc (lt_of_lt_of_le hd.length_lt hfind)
    exact ⟨_,s',hrun,hs',hc',findsLive_iff name⟩
  · intro path hpath
    obtain ⟨r,s',hrun,hs',hc',hlook,hplain⟩ := lookupLoop_spec hfind (path.length+1) hpath (Nat.lt_succ_self _)
      (fun _ => t.root) hs hc
    refine ⟨r,s',hrun,hs',hc',fun hr => (hlook hr).1,fun h hnames => (hlook (h.mpr hnames)).2,fun h => ?_⟩
    constructor
    · intro hr
      exact ⟨r,(hlook hr).1⟩
    · rintro ⟨ino,hino⟩
      rw [hplain (h ⟨ino,hino⟩) ino hino]
      exact t.walk_pos hino (by decide)

end Walk

section Image

/-- A file system whose root directory has a deleted record with the name `a`, then a live one, and then one with the
name `b`. -/
def hiddenSuper : Ufs1Super :=
  {holeSuper with
    dev := fun a => if a = 8457 then 2 else if a = 8488 then 32 else if 16384 ≤ a ∧ a < 16896 then
      ofList [0,0,0,0,12,0,8,1,97,0,0,0,5,0,0,0,12,0,8,1,97,0,0,0,6,0,0,0,0xe8,1,8,1,98] (a-16384).toNat else 0}

def hiddenRecords : List Dirent := [⟨0,8,[97]⟩,⟨5,8,[97]⟩,⟨6,8,[98]⟩]

theorem hiddenSuper_size {ino : ℕ} (h : ino ≠ 2) : diSize (hiddenSuper.inode ino) = 0 := by
  refine @size_image hiddenSuper.dev (fun a h₁ h₂ => ?_) ino h
  unfold hiddenSuper
  dsimp only
  rw [if_neg (by omega),if_neg (by omega),if_neg (by omega)]

theorem hiddenSuper_apart (ino o o' : ℕ) (a a' vba : ℤ) (h : hiddenSuper.PieceAt ino o a vba)
    (h' : hiddenSuper.PieceAt ino o' a' vba) : o/vblksize = o'/vblksize := by
  have hfirst : ∀ o a, hiddenSuper.PieceAt ino o a vba → o/vblksize = 0 := by
    rintro o a ⟨ho,-⟩
    by_cases hino : ino = 2
    · subst hino
      have hsize : diSize (hiddenSuper.inode 2) = 512 := by decide +kernel
      rw [hsize] at ho
      exact Nat.div_eq_of_lt (ho.trans (by decide))
    · rw [hiddenSuper_size hino] at ho
      omega
  rw [hfirst o a h,hfirst o' a' h']

theorem hiddenSuper_bshift : 12 ≤ hiddenSuper.bshift ∧ hiddenSuper.bshift ≤ 16 := by decide

theorem hiddenSuper_inopb : hiddenSuper.inopb ∣ hiddenSuper.ipg := by decide

/-- All of the records are in the first piece of the first block. -/
def hiddenImage : Ufs1 where
  toUfs1Super := hiddenSuper
  bshift_mem := hiddenSuper_bshift
  frag := rfl
  inopb_dvd := hiddenSuper_inopb
  apart := hiddenSuper_apart

theorem hiddenSuper_records :
    Records (fun j => (hiddenSuper.file 2).byte (devBsize*0+j)) devBsize 0 hiddenRecords := by
  have hfirst : RecordAt (fun j => (hiddenSuper.file 2).byte (devBsize*0+j)) 0 ⟨0,8,[97]⟩ 12 := by
    refine ⟨?_,?_,?_,?_,?_,?_,?_,?_⟩ <;> decide +kernel
  have hlive : RecordAt (fun j => (hiddenSuper.file 2).byte (devBsize*0+j)) 12 ⟨5,8,[97]⟩ 24 := by
    refine ⟨?_,?_,?_,?_,?_,?_,?_,?_⟩ <;> decide +kernel
  have hlast : RecordAt (fun j => (hiddenSuper.file 2).byte (devBsize*0+j)) 24 ⟨6,8,[98]⟩ devBsize := by
    refine ⟨?_,?_,?_,?_,?_,?_,?_,?_⟩ <;> decide +kernel
  exact .cons hfirst (.cons hlive (.cons hlast .nil))

def hiddenTree : Ufs1Tree where
  toUfs1 := hiddenImage
  dir := fun ino => if ino = 2 then some [hiddenRecords] else none
  dirAt := by
    intro ino chunks h
    obtain ⟨rfl,rfl⟩ : ino = 2 ∧ [hiddenRecords] = chunks := by
      split_ifs at h with hino
      exact ⟨hino,Option.some.inj h⟩
    have hsize : diSize (hiddenSuper.inode 2) = 512 := by decide +kernel
    refine ⟨by decide,hsize,hsize ▸ by decide,?_,?_,?_⟩
    · intro o ho a ha
      have hlt : o < 512 := hsize ▸ ho
      have hz : o/hiddenImage.bsize = 0 := Nat.div_eq_of_lt (hlt.trans (by decide))
      rw [hz] at ha
      have haddr : (hiddenSuper.file 2).blockAddr 0 = some 32 := by decide +kernel
      rw [← Option.some.inj (haddr.symm.trans ha)]
      decide
    · intro h
      exact absurd (hsize ▸ h : ndaddr*hiddenImage.bsize < 512) (by decide)
    · intro k hk
      obtain rfl : k = 0 := by simpa using hk
      exact hiddenSuper_records
  root := rfl
  sub := by
    intro ino chunks h e he _ hdir
    obtain rfl : [hiddenRecords] = chunks := by
      split_ifs at h
      exact Option.some.inj h
    simp only [hiddenRecords,List.flatten_cons,List.flatten_nil,List.append_nil,List.mem_cons,List.not_mem_nil,or_false] at he
    obtain rfl | rfl | rfl := he <;> exact absurd hdir (by decide)

theorem hiddenTree_unhidden : hiddenTree.Unhidden [hiddenRecords] [98] :=
  ⟨[⟨0,8,[97]⟩,⟨5,8,[97]⟩],[],rfl,by decide⟩

/-- The file `b` is found, by `fsfind` and by its path. -/
theorem boot2_ufs_lookup_other :
    (∃ r s', fsfind hiddenTree.toUfs1Super false [98] 2 (2^22) ⟨boot2Start [],fun _ => 0⟩ = some (r,s') ∧
      FindsLive [hiddenRecords] [98] r) ∧
    ∃ r s', boot2UfsLookup hiddenTree.toUfs1Super (2^22) [slash,98] ⟨boot2Start [],fun _ => 0⟩ = some (r,s') ∧ r ≠ 0 ∧
      hiddenTree.Names [slash,98] r := by
  have hstart : Calm (boot2Start []) := ⟨rfl,rfl,rfl⟩
  have hcomp : components [slash,98] = [[98]] := by
    rw [components_slash]
    exact @components_name [98] [] (by decide) (by decide) (Or.inl rfl)
  have hclear : hiddenTree.Clear rootino (components [slash,98]) := by
    rw [hcomp]
    intro chunks hch
    obtain rfl := Option.some.inj (show some [hiddenRecords] = some chunks from hch)
    exact ⟨hiddenTree_unhidden,fun _ _ => trivial⟩
  have hplain : hiddenTree.Plain rootino [slash,98] := ⟨by decide,by decide,hclear⟩
  have hnames : hiddenTree.Names [slash,98] 6 := by
    rw [Ufs1Tree.Names,hcomp]
    rfl
  obtain ⟨hfind,hlook⟩ := @boot2_ufs_lookup_iff hiddenTree ⟨boot2Start [],fun _ => 0⟩ (boot2Start_inv _ _) hstart (2^22) le_rfl
  obtain ⟨r,s₁,hrun₁,-,-,hlive⟩ := hfind 2 [hiddenRecords] [98] rfl (by decide)
  obtain ⟨r₂,s₂,hrun₂,-,-,hr,hiff⟩ := hlook [slash,98] (by decide)
  have hne : r₂ ≠ 0 := (hiff.mpr fun _ => hplain).mpr ⟨6,hnames⟩
  exact ⟨⟨r,s₁,hrun₁,hlive.mpr (Or.inl hiddenTree_unhidden)⟩,r₂,s₂,hrun₂,hne,hr hne⟩

/-- The deleted record hides the live one, from `fsfind` and from `boot2_ufs_lookup`. -/
theorem boot2_ufs_lookup_hidden :
    (∃ s', fsfind hiddenTree.toUfs1Super false [97] 2 (2^22) ⟨boot2Start [],fun _ => 0⟩ = some ((8,0),s')) ∧
    ¬FindsLive [hiddenRecords] [97] (8,0) ∧ hiddenTree.Names [slash,97] 5 ∧
    ∃ s', boot2UfsLookup hiddenTree.toUfs1Super (2^22) [slash,97] ⟨boot2Start [],fun _ => 0⟩ = some (0,s') := by
  have hstart : Calm (boot2Start []) := ⟨rfl,rfl,rfl⟩
  have hd := hiddenTree.dirAt 2 _ rfl
  have hcomp : components [slash,97] = [[97]] := by
    rw [components_slash]
    exact @components_name [97] [] (by decide) (by decide) (Or.inl rfl)
  have hnames : hiddenTree.Names [slash,97] 5 := by
    rw [Ufs1Tree.Names,hcomp]
    rfl
  have hfinds : ¬FindsLive [hiddenRecords] [97] (8,0) := by
    intro h
    have hino : (8,0) = (8,5) := h
    exact absurd hino (by decide)
  obtain ⟨s₁,hrun₁,-,-⟩ := @fsfind_spec hiddenImage 2 _ hd [97] (by decide) false (2^22) ⟨boot2Start [],fun _ => 0⟩
    (boot2Start_inv _ _) hstart (lt_of_lt_of_le hd.length_lt le_rfl)
  obtain ⟨r,s₂,hrun₂,-,-,hlook,-⟩ := @lookupLoop_spec hiddenTree (2^22) le_rfl 3 [slash,97] (by decide) (by decide)
    rootino dtDir (fun _ => hiddenTree.root) ⟨boot2Start [],fun _ => 0⟩ (boot2Start_inv _ _) hstart
  refine ⟨⟨s₁,hrun₁⟩,hfinds,hnames,s₂,?_⟩
  by_cases hr : r = 0
  · rw [← hr]
    exact hrun₂
  · -- the path is not plain
    have hclear := (hlook hr).2.clear
    rw [hcomp] at hclear
    exact absurd ((@findsLive_iff hiddenImage 2 _ [97]).mpr (Or.inl (hclear _ rfl).1)) hfinds

end Image

end Blub.Boot
