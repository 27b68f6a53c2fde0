import Blub.Lib.Fuel
import Blub.Stand.Hammer2Fault
import Blub.Stand.Hammer2Stall
import Blub.Stand.Path

/-! Paths on HAMMER2 volumes. Without failing reads `h2resolve` follows a path, but for a file with a slash behind it; a
read that fails is taken for an entry. -/
namespace Blub.Stand
open Blub.Boot (slash components)

section Tree
variable (L : H2Layout) (v : H2Volume)

/-- The inode of a blockref, as far as it is read. -/
def H2Volume.inode (b : Bref) : ℕ → UInt8 := window (v.block b) 0 L.embeddedBytes

/-- The name in an inode. -/
def inodeName (ino : ℕ → UInt8) : List UInt8 := (List.range (L.nameLen ino)).map fun j => ino (L.filenameOff+j)

/-- The entries of a directory are the leaves below it, each under a key of the chain of its name. -/
structure DirOk (hash : List UInt8 → ℕ) (dir : Bref) : Prop where
  tree : v.KeyTree L keySpan dir
  plain : isDirect L dir (v.block dir) = false
  single : ∀ b, v.LeafBelow L dir b → keySpan b = 1
  chain : ∀ b, v.LeafBelow L dir b → hash (inodeName L (v.inode L b)) ≤ b.key ∧ b.key ≤ hash (inodeName L (v.inode L b)) ||| 0xFFFF
  keys : ∀ b, v.LeafBelow L dir b → ∀ b', v.LeafBelow L dir b' → b.key = b'.key → b = b'
  names : ∀ b, v.LeafBelow L dir b → ∀ b', v.LeafBelow L dir b' →
    inodeName L (v.inode L b) = inodeName L (v.inode L b') → b = b'

/-- The directories of a volume. -/
inductive H2Volume.Dir : Bref → Prop
  | root : H2Volume.Dir v.sroot
  | entry {dir b : Bref} : H2Volume.Dir dir → v.LeafBelow L dir b → L.isDirectory (v.inode L b) = true → H2Volume.Dir b

/-- The walk along the components of a path: all of them exist, and all but the last are directories. -/
inductive H2Volume.Leads : Bref → List (List UInt8) → Bref → Prop
  | here (b : Bref) : H2Volume.Leads b [] b
  | step {dir b b' : Bref} {names : List (List UInt8)} : v.LeafBelow L dir b →
    (names ≠ [] → L.isDirectory (v.inode L b) = true) → H2Volume.Leads b names b' →
    H2Volume.Leads dir (inodeName L (v.inode L b) :: names) b'

/-- A path that ends in a slash, but not in a directory. -/
def H2Volume.SlashAfterFile (dir : Bref) (path : List UInt8) : Prop :=
  ∃ b, v.Leads L dir (components path) b ∧ components path ≠ [] ∧ path.getLast? = some slash ∧ L.isDirectory (v.inode L b) = false

end Tree

section Looks
variable (L : H2Layout) (v : H2Volume) (unset : ℤ) (wild : ℕ → UInt8)

/-- The lookups for the name of one component. After each of them that does not return 0 the entry is inspected. -/
inductive NameLooks (dir : Bref) (name : List UInt8) : ℕ → Bref → Option ℕ → H2 → H2Found → H2 → Prop
  | here {fuel key : ℕ} {bres : Bref} {ino : Option ℕ} {s s' : H2} {f : H2Found} :
    h2lookup L v unset fuel dir key (key ||| 0xFFFF) bres s = some (f,s') → NameLooks dir name key bres ino s f s'
  | next {fuel key : ℕ} {bres : Bref} {ino : Option ℕ} {s s' s'' : H2} {f g : H2Found} :
    h2lookup L v unset fuel dir key (key ||| 0xFFFF) bres s = some (f,s') → f.rc ≠ 0 →
    nameMatch L (inodeAt L wild s'.media (f.ptr <|> ino)) name = false →
    NameLooks dir name ((f.bref.key+1)%2^64) f.bref (f.ptr <|> ino) s' g s'' → NameLooks dir name key bres ino s g s''

/-- The lookups for a path. -/
inductive PathLooks (hash : List UInt8 → ℕ) : List UInt8 → Bref → Bref → Option ℕ → H2 → H2Found → H2 → Prop
  | here {path : List UInt8} {bref bres : Bref} {ino : Option ℕ} {s s' : H2} {f : H2Found} :
    path.dropWhile (· = slash) ≠ [] →
    NameLooks L v unset wild bref (firstName path)
      (hash (firstName path)) bres ino s f s' →
    PathLooks hash path bref bres ino s f s'
  | next {fuel : ℕ} {path : List UInt8} {bref bres bres' : Bref} {ino ino' : Option ℕ} {s s' s'' : H2} {f : H2Found} {bytes : ℤ} :
    path.dropWhile (· = slash) ≠ [] →
    resolveName L v unset wild fuel bref (firstName path)
      (hash (firstName path)) bres ino s = some (bytes,bres',ino',s') →
    bytes ≠ 0 →
    ¬(behindName path ≠ [] ∧ ¬L.isDirectory (inodeAt L wild s'.media ino')) →
    PathLooks hash (behindName path) bres' bres' ino' s' f s'' →
    PathLooks hash path bref bres ino s f s''

/-- The entry that is inspected is the one that the lookup has read. -/
def H2Found.Inspects (f : H2Found) (media : ℕ → UInt8) : Prop :=
  f.rc ≠ 0 → ∃ p, f.ptr = some p ∧ ∀ j < L.embeddedBytes, media (p+j) = v.block f.bref j

variable (icrc32 : List UInt8 → ℕ) (path : List UInt8) (bres : Bref) (s : H2)

/-- What `h2resolve` ought to do, whichever reads fail. -/
structure ResolveRight : Prop where
  ends : ∃ N, ∀ fuel ≥ N, ∃ bref inop s', h2resolve L v unset wild icrc32 fuel path bres s = some (bref,inop,s')
  reached : ∀ fuel bref inop s', h2resolve L v unset wild icrc32 fuel path bres s = some (bref,inop,s') →
    (∀ e ∈ s'.log.drop s.log.length, e.ok = true) → ∀ b, v.Leads L v.sroot (components path) b → bref = b
  missing : ∀ fuel bref inop s', h2resolve L v unset wild icrc32 fuel path bres s = some (bref,inop,s') →
    (∃ e ∈ s'.log.drop s.log.length, e.ok = false) ∨ (¬∃ b, v.Leads L v.sroot (components path) b) → bref.dataOff = noBase
  inspects : ∀ f s', PathLooks L v unset wild (hammer2Dirhash icrc32) path v.sroot bres none s f s' → f.Inspects L v s'.media

/-- The reads that the walk makes when no read fails all succeed. -/
def ReadsWork : Prop :=
  ∀ fuel bref inop t, h2resolve L v unset wild icrc32 fuel path bres (s.meets []) = some (bref,inop,t) →
    NoFault (t.log.length-s.log.length) s.io

end Looks

section Fuel
variable {L : H2Layout} {v : H2Volume} {unset : ℤ} {wild : ℕ → UInt8}

theorem resolveName_mono {fuel : ℕ} {dir bres : Bref} {name : List UInt8} {key : ℕ} {ino : Option ℕ} {s : H2}
    {out : ℤ × Bref × Option ℕ × H2} (h : resolveName L v unset wild fuel dir name key bres ino s = some out) :
    resolveName L v unset wild (fuel+1) dir name key bres ino s = some out := by
  induction fuel generalizing key bres ino s with
  | zero => cases h
  | succ fuel ih =>
    rw [resolveName] at h ⊢
    cases hl : h2lookup L v unset fuel dir key (key ||| 0xFFFF) bres s with
    | none =>
      rw [hl] at h
      cases h
    | some r =>
      rw [hl] at h
      rw [h2lookup_mono hl]
      dsimp only at h ⊢
      split_ifs at h ⊢
      · exact h
      · exact h
      · exact ih h

theorem resolveLoop_mono {hash : List UInt8 → ℕ} {fuel : ℕ} {path : List UInt8} {bref bres : Bref} {ino inop : Option ℕ}
    {s : H2} {out : Bref × Option ℕ × H2} (h : resolveLoop L v unset wild hash fuel path bref bres ino inop s = some out) :
    resolveLoop L v unset wild hash (fuel+1) path bref bres ino inop s = some out := by
  induction fuel generalizing path bref bres ino inop s with
  | zero => cases h
  | succ fuel ih =>
    rw [resolveLoop] at h ⊢
    dsimp only at h ⊢
    split_ifs at h ⊢
    · exact h
    cases hn : resolveName L v unset wild fuel bref ((path.dropWhile (· = 47)).takeWhile (· ≠ 47))
        (hash ((path.dropWhile (· = 47)).takeWhile (· ≠ 47))) bres ino s with
    | none =>
      rw [hn] at h
      cases h
    | some r =>
      rw [hn] at h
      rw [resolveName_mono hn]
      dsimp only at h ⊢
      split_ifs at h ⊢
      · exact h
      · exact h
      · exact ih h

theorem resolveName_unique {fuel fuel' : ℕ} {dir bres : Bref} {name : List UInt8} {key : ℕ} {ino : Option ℕ} {s : H2}
    {out out' : ℤ × Bref × Option ℕ × H2} (h : resolveName L v unset wild fuel dir name key bres ino s = some out)
    (h' : resolveName L v unset wild fuel' dir name key bres ino s = some out') : out = out' :=
  Fuel.unique (f := fun n => resolveName L v unset wild n dir name key bres ino s) (fun _ _ => resolveName_mono) h h'

theorem resolveLoop_unique {hash : List UInt8 → ℕ} {fuel fuel' : ℕ} {path : List UInt8} {bref bres : Bref}
    {ino inop : Option ℕ} {s : H2} {out out' : Bref × Option ℕ × H2}
    (h : resolveLoop L v unset wild hash fuel path bref bres ino inop s = some out)
    (h' : resolveLoop L v unset wild hash fuel' path bref bres ino inop s = some out') : out = out' :=
  Fuel.unique (f := fun n => resolveLoop L v unset wild hash n path bref bres ino inop s) (fun _ _ => resolveLoop_mono) h h'

end Fuel

section Names
variable {L : H2Layout} (d : H2Disk L) {hash : List UInt8 → ℕ} {unset : ℤ} {wild : ℕ → UInt8} {dir : Bref} {name : List UInt8}

theorem or_low (x : ℕ) : x ||| 0xFFFF = x/65536*65536+65535 := by
  have h := Nat.two_pow_add_eq_or_of_lt (i := 16) (b := 65535) (by norm_num) (x/65536)
  rw [show x/65536*65536+65535 = 2^16*(x/65536)+65535 by omega,h,show (0xFFFF : ℕ) = 2^16-1 by norm_num]
  apply Nat.eq_of_testBit_eq
  intro i
  rw [Nat.testBit_or,Nat.testBit_or,Nat.testBit_two_pow_sub_one,Nat.testBit_two_pow_mul]
  by_cases hi : i < 16
  · simp [hi]
  · have hle := not_lt.mp hi
    rw [show x/65536 = x/2^16 by norm_num,Nat.testBit_div_two_pow,Nat.sub_add_cancel hle]
    simp [hi,hle]

theorem nameMatch_iff {ino : ℕ → UInt8} : nameMatch L ino name = true ↔ inodeName L ino = name := by
  rw [nameMatch,decide_eq_true_iff]
  constructor
  · rintro ⟨hlen,hbytes⟩
    apply List.ext_getElem
    · simp [inodeName,hlen]
    · intro j h₁ h₂
      have hj := hbytes j h₂
      rw [List.getD_eq_getElem _ _ h₂] at hj
      simp [inodeName,hj]
  · rintro rfl
    refine ⟨by simp [inodeName],fun j hj => ?_⟩
    rw [List.getD_eq_getElem _ _ hj]
    simp [inodeName]

theorem inode_media {b : Bref} (hb : d.Ref L b) (ht : b.IsLeaf) {media : ℕ → UInt8} {p : ℕ}
    (h : ∀ j < blocksize b, media (p+j) = d.block b j) : window media p L.embeddedBytes = d.inode L b := by
  have hsize := (d.leaves b hb ht).1
  have hle := L.data_le
  refine window_congr fun j hj => ?_
  rw [h j (by omega),Nat.zero_add]

/-- What `resolveName` should return: the entry with the name, or 0. -/
def NameRight (dir : Bref) (name : List UInt8) (bytes : ℤ) (b : Bref) (ino : Option ℕ) (media : ℕ → UInt8) : Prop :=
  (bytes = 0 ∧ ∀ b, d.LeafBelow L dir b → inodeName L (d.inode L b) ≠ name) ∨
  (bytes ≠ 0 ∧ d.LeafBelow L dir b ∧ inodeName L (d.inode L b) = name ∧ ∃ p, ino = some p ∧
    window media p L.embeddedBytes = d.inode L b)

/-- One lookup in a directory. -/
theorem dir_lookup (hdir : DirOk L d.toH2Volume hash dir) (hbase : H2Base L d.toH2Volume dir) (unset : ℤ) {fuel key : ℕ}
    (hkey : key < 2^64) (bres : Bref) {t : H2} (ht : t.io = []) (hs : H2Holds d.toH2Volume t)
    (hM : ∀ keyBeg keyEnd ret, keyEnd < 2^64 → ∃ hit, d.lookup L fuel dir keyBeg keyEnd ret = some hit) :
    ∃ f t₁, Follows H2Found.Unread (h2lookup L d.toH2Volume unset fuel dir key (key ||| 0xFFFF) bres) t f t₁ ∧
      H2Holds d.toH2Volume t₁ ∧ LookupRight L d.toH2Volume keySpan blocksize dir key (key ||| 0xFFFF) f t₁.media := by
  have hend : key ||| 0xFFFF < 2^64 := Nat.or_lt_two_pow hkey (by norm_num)
  obtain ⟨hit,hl⟩ := hM key (key ||| 0xFFFF) bres hend
  have hdone : t.Done := by
    rw [H2.Done,ht]
    exact fun o ho => absurd ho List.not_mem_nil
  obtain ⟨f,t₁,hrun,hs₁,hlook⟩ := h2lookup_right d unset hbase hdir.tree hdir.plain hl hs hdone
  exact ⟨f,t₁,h2lookup_follows unset fuel dir key (key ||| 0xFFFF) bres ht hrun,hs₁,hlook⟩

/-- The search for a name, with any reads failing: an entry that was not read is inspected if one of the reads fails. -/
structure NameRuns (unset : ℤ) (wild : ℕ → UInt8) (fuel : ℕ) (dir : Bref) (name : List UInt8) (key : ℕ) (bres : Bref)
    (ino : Option ℕ) (t : H2) (bytes : ℤ) (b : Bref) (ino' : Option ℕ) (t' : H2) (l : List H2Read) : Prop where
  passes : Passes t t' l
  holds : H2Holds d.toH2Volume t'
  right : NameRight d dir name bytes b ino' t'.media
  run : resolveName L d.toH2Volume unset wild fuel dir name key bres ino t = some (bytes,b,ino',t')
  clean : ∀ io, NoFault l.length io →
    resolveName L d.toH2Volume unset wild fuel dir name key bres ino (t.meets io) = some (bytes,b,ino',t'.meets (io.drop l.length)) ∧
    ∀ f s', NameLooks L d.toH2Volume unset wild dir name key bres ino (t.meets io) f s' → f.Inspects L d.toH2Volume s'.media
  fault : ∀ io, ¬NoFault l.length io → ∃ f s', NameLooks L d.toH2Volume unset wild dir name key bres ino (t.meets io) f s' ∧
    ¬f.Inspects L d.toH2Volume s'.media

theorem H2Found.Unread.not_inspects {f : H2Found} (h : f.Unread) (v : H2Volume) (media : ℕ → UInt8) : ¬f.Inspects L v media := by
  intro hi
  obtain ⟨p,hp,-⟩ := hi (by rw [h.1]; decide)
  rw [h.2] at hp
  cases hp

theorem LookupRight.inspects {keyBeg keyEnd : ℕ} {f : H2Found} {media : ℕ → UInt8} (h : LookupRight L d.toH2Volume keySpan blocksize dir keyBeg keyEnd f media)
    (hbase : H2Base L d.toH2Volume dir) : f.Inspects L d.toH2Volume media := by
  intro hrc
  obtain ⟨p,hp,hbytes⟩ := h.bytes hrc
  have hbelow := (h.leaf hrc).below
  have hsize := (d.leaves _ (leaf_ref d hbase hbelow) (leaf_type hbelow)).1
  have hle := L.data_le
  exact ⟨p,hp,fun j hj => hbytes j (by omega)⟩

/-- What one lookup leaves to be searched. -/
theorem key_left (hdir : DirOk L d.toH2Volume hash dir) {key : ℕ} {f : Bref}
    (hlow : LowestLeaf L d.toH2Volume keySpan dir key (key ||| 0xFFFF) f) (hne : inodeName L (d.inode L f) ≠ name)
    (hlt : ∀ b, d.LeafBelow L dir b → b.key < 2^64)
    (hleft : ∀ b, d.LeafBelow L dir b → inodeName L (d.inode L b) = name → key ≤ b.key ∧ b.key ≤ key ||| 0xFFFF) :
    ∀ b, d.LeafBelow L dir b → inodeName L (d.inode L b) = name →
      (f.key+1)%2^64 ≤ b.key ∧ b.key ≤ (f.key+1)%2^64 ||| 0xFFFF := by
  intro b hb hname
  obtain ⟨hbeg,hend⟩ := hleft b hb hname
  have hb64 := hlt b hb
  have hspan := hdir.single b hb
  have hle := hlow.lowest b hb ⟨by omega,hend⟩
  have hkeys : f.key ≠ b.key := by
    intro heq
    rw [hdir.keys f hlow.below b hb heq] at hne
    exact hne hname
  have hfbeg := hlow.hits.1
  rw [hdir.single f hlow.below] at hfbeg
  rw [Nat.mod_eq_of_lt (by omega)]
  rw [or_low] at hend ⊢
  omega

/-- Keys of directory entries have bit 63 set. -/
theorem DirOk.key_range (hdir : DirOk L d.toH2Volume hash dir) (hhash : ∀ name, 2^63 ≤ hash name ∧ hash name < 2^64) {b : Bref}
    (hb : d.LeafBelow L dir b) : 2^63 ≤ b.key ∧ b.key < 2^64 := by
  obtain ⟨hlo,hhi⟩ := hdir.chain b hb
  obtain ⟨hbit,hlt⟩ := hhash (inodeName L (d.inode L b))
  have hor := Nat.or_lt_two_pow hlt (show 0xFFFF < 2^64 by norm_num)
  omega

section Found
variable {fuel key : ℕ} {bres : Bref} {ino : Option ℕ} {t t₁ : H2} {f : H2Found}
  (hfollows : Follows H2Found.Unread (h2lookup L d.toH2Volume unset fuel dir key (key ||| 0xFFFF) bres) t f t₁)
  (hs₁ : H2Holds d.toH2Volume t₁) (hlook : LookupRight L d.toH2Volume keySpan blocksize dir key (key ||| 0xFFFF) f t₁.media)
  (hbase : H2Base L d.toH2Volume dir)
variable (wild) (ino)
include hfollows hs₁ hlook hbase

/-- A lookup that finds nothing. -/
theorem nameRuns_nothing (hdir : DirOk L d.toH2Volume hash dir) (hrc : f.rc = 0)
    (hleft : ∀ b, d.LeafBelow L dir b → inodeName L (d.inode L b) = name → key ≤ b.key ∧ b.key ≤ key ||| 0xFFFF) :
    ∃ l, NameRuns d unset wild (fuel+1) dir name key bres ino t 0 f.bref (f.ptr <|> ino) t₁ l := by
  obtain ⟨hrun,l,hl,hio⟩ := hfollows
  refine ⟨l,hl,hs₁,.inl ⟨rfl,fun b hb hname => ?_⟩,?_,?_,?_⟩
  · obtain ⟨hbeg,hend⟩ := hleft b hb hname
    have hspan := hdir.single b hb
    exact hlook.nothing.mp hrc b hb ⟨by omega,hend⟩
  · rw [resolveName,hrun]
    dsimp only
    rw [if_pos hrc]
  · intro io hc
    obtain ⟨-,heq⟩ := (hio io).resolve_right fun h => h.1 hc
    constructor
    · rw [resolveName,heq]
      dsimp only
      rw [if_pos hrc]
    · intro g s' hg
      cases hg with
      | here h =>
        cases h2lookup_unique h heq
        exact hlook.inspects d hbase
      | next h hne _ _ =>
        cases h2lookup_unique h heq
        exact absurd hrc hne
  · intro io hc
    obtain ⟨-,g,s',heq,hbad⟩ := (hio io).resolve_left fun h => hc h.1
    exact ⟨g,s',.here heq,hbad.not_inspects d.toH2Volume s'.media⟩

omit hfollows hs₁ in
/-- A lookup that finds an entry: the inode that is inspected is its own. -/
theorem found_inode (hrc : f.rc ≠ 0) : ∃ p, f.ptr = some p ∧
    (∀ wild ino, inodeAt L wild t₁.media (f.ptr <|> ino) = d.inode L f.bref) ∧ window t₁.media p L.embeddedBytes = d.inode L f.bref := by
  obtain ⟨p,hp,hbytes⟩ := hlook.bytes hrc
  have hbelow := (hlook.leaf hrc).below
  have hwin := inode_media d (leaf_ref d hbase hbelow) (leaf_type hbelow) hbytes
  refine ⟨p,hp,fun wild ino => ?_,hwin⟩
  rw [hp]
  exact hwin

/-- A lookup that finds the name. -/
theorem nameRuns_match (hrc : f.rc ≠ 0) (hname : inodeName L (d.inode L f.bref) = name) :
    ∃ l, NameRuns d unset wild (fuel+1) dir name key bres ino t f.rc f.bref (f.ptr <|> ino) t₁ l := by
  obtain ⟨p,hp,hino,hwin⟩ := found_inode d hlook hbase hrc
  obtain ⟨hrun,l,hl,hio⟩ := hfollows
  have hmatch : nameMatch L (inodeAt L wild t₁.media (f.ptr <|> ino)) name = true := by
    rw [hino,nameMatch_iff]
    exact hname
  refine ⟨l,hl,hs₁,.inr ⟨hrc,(hlook.leaf hrc).below,hname,p,by rw [hp]; rfl,hwin⟩,?_,?_,?_⟩
  · rw [resolveName,hrun]
    dsimp only
    rw [if_neg hrc,if_pos hmatch]
  · intro io hc
    obtain ⟨-,heq⟩ := (hio io).resolve_right fun h => h.1 hc
    constructor
    · rw [resolveName,heq]
      dsimp only
      rw [if_neg hrc,show (t₁.meets (io.drop l.length)).media = t₁.media from rfl,if_pos hmatch]
    · intro g s' hg
      cases hg with
      | here h =>
        cases h2lookup_unique h heq
        exact hlook.inspects d hbase
      | next h _ hno _ =>
        cases h2lookup_unique h heq
        exact absurd hmatch (Bool.not_eq_true _ ▸ hno)
  · intro io hc
    obtain ⟨-,g,s',heq,hbad⟩ := (hio io).resolve_left fun h => hc h.1
    exact ⟨g,s',.here heq,hbad.not_inspects d.toH2Volume s'.media⟩

omit hs₁ in
/-- A lookup that finds another name, and the search behind it. -/
theorem nameRuns_next (hrc : f.rc ≠ 0) (hname : inodeName L (d.inode L f.bref) ≠ name) {bytes : ℤ} {b : Bref} {ino' : Option ℕ}
    {t' : H2} {l' : List H2Read}
    (h : NameRuns d unset wild fuel dir name ((f.bref.key+1)%2^64) f.bref (f.ptr <|> ino) t₁ bytes b ino' t' l') :
    ∃ l, NameRuns d unset wild (fuel+1) dir name key bres ino t bytes b ino' t' l := by
  obtain ⟨p,-,hino,-⟩ := found_inode d hlook hbase hrc
  obtain ⟨hrun,l,hl,hio⟩ := hfollows
  have hno : nameMatch L (inodeAt L wild t₁.media (f.ptr <|> ino)) name = false := by
    rw [hino,← Bool.not_eq_true,nameMatch_iff]
    exact hname
  refine ⟨l ++ l',hl.trans h.passes,h.holds,h.right,?_,?_,?_⟩
  · rw [resolveName,hrun]
    dsimp only
    rw [if_neg hrc,hno]
    exact h.run
  · intro io hc
    rw [List.length_append,noFault_add] at hc
    obtain ⟨-,heq⟩ := (hio io).resolve_right fun h => h.1 hc.1
    obtain ⟨hrun',hins⟩ := h.clean _ hc.2
    constructor
    · rw [resolveName,heq]
      dsimp only
      rw [if_neg hrc,show (t₁.meets (io.drop l.length)).media = t₁.media from rfl,hno,List.length_append,← List.drop_drop]
      exact hrun'
    · intro g s' hg
      cases hg with
      | here h =>
        cases h2lookup_unique h heq
        exact hlook.inspects d hbase
      | next h _ _ hrest =>
        cases h2lookup_unique h heq
        exact hins _ _ hrest
  · intro io hc
    obtain ⟨hcl,heq⟩ | ⟨-,g,s',heq,hbad⟩ := hio io
    · have hc' : ¬NoFault l'.length (io.drop l.length) := by
        rw [List.length_append,noFault_add] at hc
        exact fun h => hc ⟨hcl,h⟩
      obtain ⟨g,s',hg,hbad⟩ := h.fault _ hc'
      exact ⟨g,s',.next heq hrc hno hg,hbad⟩
    · exact ⟨g,s',.here heq,hbad.not_inspects d.toH2Volume s'.media⟩

end Found

/-- The search for a name comes to an end: each lookup starts behind the entry that was found, and behind the last key
it starts at 0, where there are no entries. -/
theorem resolveName_runs (hdir : DirOk L d.toH2Volume hash dir) (hbase : H2Base L d.toH2Volume dir)
    (hhash : ∀ name, 2^63 ≤ hash name ∧ hash name < 2^64) (unset : ℤ) (wild : ℕ → UInt8) (name : List UInt8) {M : ℕ}
    (hM : ∀ fuel ≥ M, ∀ keyBeg keyEnd ret, keyEnd < 2^64 → ∃ hit, d.lookup L fuel dir keyBeg keyEnd ret = some hit)
    (n : ℕ) {key fuel : ℕ} (hkey : key < 2^64) (hn : key = 0 ∨ 2^64 ≤ key+n) (hfuel : M+n ≤ fuel)
    (hleft : ∀ b, d.LeafBelow L dir b → inodeName L (d.inode L b) = name → key ≤ b.key ∧ b.key ≤ key ||| 0xFFFF)
    (bres : Bref) (ino : Option ℕ) {t : H2} (ht : t.io = []) (hs : H2Holds d.toH2Volume t) :
    ∃ bytes b ino' t' l, NameRuns d unset wild (fuel+1) dir name key bres ino t bytes b ino' t' l := by
  have hzero : ∀ key f, LowestLeaf L d.toH2Volume keySpan dir key (key ||| 0xFFFF) f → key ≠ 0 := by
    rintro key f hlow rfl
    have hrange := hdir.key_range d hhash hlow.below
    have hend := hlow.hits.2
    rw [or_low] at hend
    omega
  induction n generalizing key fuel bres ino t with
  | zero =>
    obtain ⟨f,t₁,hfollows,hs₁,hlook⟩ := dir_lookup d hdir hbase unset hkey bres ht hs (hM fuel (by omega))
    have hrc : f.rc = 0 := by
      by_contra hrc
      have hne := hzero key _ (hlook.leaf hrc)
      omega
    obtain ⟨l,hl⟩ := nameRuns_nothing d wild ino hfollows hs₁ hlook hbase hdir hrc hleft
    exact ⟨_,_,_,_,_,hl⟩
  | succ n ih =>
    obtain ⟨f,t₁,hfollows,hs₁,hlook⟩ := dir_lookup d hdir hbase unset hkey bres ht hs (hM fuel (by omega))
    by_cases hrc : f.rc = 0
    · obtain ⟨l,hl⟩ := nameRuns_nothing d wild ino hfollows hs₁ hlook hbase hdir hrc hleft
      exact ⟨_,_,_,_,_,hl⟩
    by_cases hname : inodeName L (d.inode L f.bref) = name
    · obtain ⟨l,hl⟩ := nameRuns_match d wild ino hfollows hs₁ hlook hbase hrc hname
      exact ⟨_,_,_,_,_,hl⟩
    have hlow := hlook.leaf hrc
    have hlt := (hdir.key_range d hhash hlow.below).2
    have hbeg := hlow.hits.1
    rw [hdir.single _ hlow.below] at hbeg
    have hne := hzero key _ hlow
    obtain ⟨fuel,rfl⟩ : ∃ m, fuel = m+1 := ⟨fuel-1,by omega⟩
    obtain ⟨l₁,hl₁⟩ := hfollows.passes
    have hnext : (f.bref.key+1)%2^64 = 0 ∨ 2^64 ≤ (f.bref.key+1)%2^64+n := by
      obtain hlast | hmore := Nat.lt_or_eq_of_le (Nat.succ_le_of_lt hlt)
      · rw [Nat.mod_eq_of_lt hlast]
        omega
      · rw [show f.bref.key+1 = 2^64 from hmore]
        exact .inl (Nat.mod_self _)
    have hm : M+n ≤ fuel := by omega
    have hrest := key_left d hdir hlow hname (fun b hb => (hdir.key_range d hhash hb).2) hleft
    obtain ⟨bytes,b,ino',t',l,hl⟩ := ih (Nat.mod_lt _ (by norm_num)) hnext hm hrest f.bref (f.ptr <|> ino) hl₁.io hs₁
    obtain ⟨l',hl'⟩ := nameRuns_next d wild ino hfollows hlook hbase hrc hname hl
    exact ⟨_,_,_,_,_,hl'⟩

end Names

section Walk
variable {L : H2Layout} (d : H2Disk L) {hash : List UInt8 → ℕ} {dir : Bref} {path : List UInt8}

/-- What a path comes to: where it leads, or nothing. -/
def PathRight (dir : Bref) (path : List UInt8) (out : Bref) : Prop :=
  (d.Leads L dir (components path) out ∧ ¬d.SlashAfterFile L dir path) ∨
  (((¬∃ b, d.Leads L dir (components path) b) ∨ d.SlashAfterFile L dir path) ∧ out.dataOff = noBase)

theorem pathRight_end (hpath : path.dropWhile (· = slash) = []) : PathRight d dir path dir := by
  have hnil := components_nil hpath
  left
  constructor
  · rw [hnil]
    exact .here dir
  · rintro ⟨b,-,hne,-⟩
    exact hne hnil

variable (hpath : path.dropWhile (· = slash) ≠ [])
include hpath

/-- The first component does not exist. -/
theorem pathRight_none {out : Bref}
    (hno : ∀ b, d.LeafBelow L dir b → inodeName L (d.inode L b) ≠ firstName path)
    (hout : out.dataOff = noBase) : PathRight d dir path out := by
  refine .inr ⟨.inl ?_,hout⟩
  rintro ⟨b,hb⟩
  rw [components_cons hpath] at hb
  generalize hname : firstName path = name at hb hno
  cases hb with
  | step hbelow _ _ => exact hno _ hbelow rfl

variable (hdir : DirOk L d.toH2Volume hash dir) {b : Bref} (hb : d.LeafBelow L dir b)
  (hname : inodeName L (d.inode L b) = firstName path)
include hdir hb hname

theorem leads_iff (b' : Bref) : d.Leads L dir (components path) b' ↔
    (components (behindName path) ≠ [] → L.isDirectory (d.inode L b) = true) ∧
    d.Leads L b (components (behindName path)) b' := by
  rw [components_cons hpath,← hname]
  generalize hn : inodeName L (d.inode L b) = name
  constructor
  · intro h
    cases h with
    | @step _ c _ _ hbelow hd hl =>
      cases hdir.names _ hbelow b hb hn.symm
      exact ⟨hd,hl⟩
  · rintro ⟨hd,hl⟩
    rw [← hn]
    exact .step hb hd hl

/-- The first component is not a directory, but something follows it. -/
theorem pathRight_file {out : Bref} (hrest : behindName path ≠ [])
    (hfile : L.isDirectory (d.inode L b) = false) (hout : out.dataOff = noBase) : PathRight d dir path out := by
  refine .inr ⟨?_,hout⟩
  by_cases hnil : components (behindName path) = []
  · right
    have hlead := (leads_iff d hpath hdir hb hname b).mpr ⟨fun h => absurd hnil h,by rw [hnil]; exact .here b⟩
    refine ⟨b,hlead,?_,?_,hfile⟩
    · rw [components_cons hpath]
      exact List.cons_ne_nil _ _
    · rw [behindName_last hrest]
      exact slashes_last hrest hnil
  · left
    rintro ⟨b',hb'⟩
    have hd := ((leads_iff d hpath hdir hb hname b').mp hb').1 hnil
    rw [hfile] at hd
    cases hd

/-- The walk goes on behind the first component. -/
theorem pathRight_step {out : Bref}
    (hgo : behindName path ≠ [] → L.isDirectory (d.inode L b) = true)
    (h : PathRight d b (behindName path) out) : PathRight d dir path out := by
  have hcomp : components (behindName path) ≠ [] → L.isDirectory (d.inode L b) = true := by
    intro hne
    refine hgo fun hnil => hne ?_
    rw [hnil]
    rfl
  have hleads : ∀ b', d.Leads L dir (components path) b' ↔
      d.Leads L b (components (behindName path)) b' :=
    fun b' => (leads_iff d hpath hdir hb hname b').trans (and_iff_right hcomp)
  have hslash : d.SlashAfterFile L dir path ↔ d.SlashAfterFile L b (behindName path) := by
    constructor
    · rintro ⟨b',hl,-,hlast,hfile⟩
      rw [hleads] at hl
      by_cases hrest : behindName path = []
      · exact absurd hlast (name_last hpath hrest)
      rw [behindName_last hrest] at hlast
      refine ⟨b',hl,fun hnil => ?_,hlast,hfile⟩
      rw [hnil] at hl
      cases hl
      rw [hgo hrest] at hfile
      cases hfile
    · rintro ⟨b',hl,hne,hlast,hfile⟩
      have hrest : behindName path ≠ [] := by
        intro hnil
        rw [hnil] at hne
        exact hne rfl
      refine ⟨b',(hleads b').mpr hl,?_,by rwa [behindName_last hrest],hfile⟩
      rw [components_cons hpath]
      exact List.cons_ne_nil _ _
  unfold PathRight
  simp only [hleads,hslash]
  exact h

end Walk

section Run
variable {L : H2Layout} (d : H2Disk L) {hash : List UInt8 → ℕ} {unset : ℤ} {wild : ℕ → UInt8}

/-- The walk along a path, with any reads failing. -/
structure PathRuns (hash : List UInt8 → ℕ) (unset : ℤ) (wild : ℕ → UInt8) (fuel : ℕ) (path : List UInt8) (bref bres : Bref)
    (ino inop : Option ℕ) (t : H2) (out : Bref) (inop' : Option ℕ) (t' : H2) (l : List H2Read) : Prop where
  passes : Passes t t' l
  right : PathRight d bref path out
  run : resolveLoop L d.toH2Volume unset wild hash fuel path bref bres ino inop t = some (out,inop',t')
  clean : ∀ io, NoFault l.length io →
    resolveLoop L d.toH2Volume unset wild hash fuel path bref bres ino inop (t.meets io) =
      some (out,inop',t'.meets (io.drop l.length)) ∧
    ∀ f s', PathLooks L d.toH2Volume unset wild hash path bref bres ino (t.meets io) f s' → f.Inspects L d.toH2Volume s'.media
  fault : ∀ io, ¬NoFault l.length io → ∃ f s', PathLooks L d.toH2Volume unset wild hash path bref bres ino (t.meets io) f s' ∧
    ¬f.Inspects L d.toH2Volume s'.media

variable {fuel : ℕ} {path : List UInt8} {dir bres b : Bref} {ino inop ino' : Option ℕ} {t t' : H2} {l : List H2Read} {bytes : ℤ}

theorem pathRuns_end (hpath : path.dropWhile (· = slash) = []) (ht : t.io = []) :
    PathRuns d hash unset wild (fuel+1) path dir bres ino inop t dir inop t [] := by
  have hrun : ∀ s, resolveLoop L d.toH2Volume unset wild hash (fuel+1) path dir bres ino inop s = some (dir,inop,s) := by
    intro s
    rw [resolveLoop]
    exact if_pos hpath
  refine ⟨⟨ht,(List.append_nil _).symm,nofun⟩,pathRight_end d hpath,hrun t,fun io _ => ⟨hrun _,?_⟩,?_⟩
  · intro f s' hf
    cases hf with
    | here hne _ => exact absurd hpath hne
    | next hne _ _ _ _ => exact absurd hpath hne
  · exact fun io hc => absurd (noFault_zero io) hc

/-- One component of a path. -/
theorem resolveLoop_name {s s' : H2} (hpath : path.dropWhile (· = slash) ≠ [])
    (h : resolveName L d.toH2Volume unset wild fuel dir (firstName path)
      (hash (firstName path)) bres ino s = some (bytes,b,ino',s')) :
    resolveLoop L d.toH2Volume unset wild hash (fuel+1) path dir bres ino inop s =
      if bytes = 0 then some ({dir with dataOff := noBase},inop,s')
      else if behindName path ≠ [] ∧ ¬L.isDirectory (inodeAt L wild s'.media ino') then
        some ({dir with dataOff := noBase},ino',s')
      else resolveLoop L d.toH2Volume unset wild hash fuel (behindName path) b b ino' ino' s' := by
  rw [resolveLoop]
  dsimp only
  rw [if_neg (show ¬path.dropWhile (· = 47) = [] from hpath)]
  unfold firstName slash at h
  unfold behindName slash
  rw [h]

variable (inop) (hpath : path.dropWhile (· = slash) ≠ [])
  (hn : NameRuns d unset wild fuel dir (firstName path)
    (hash (firstName path)) bres ino t bytes b ino' t' l)
include hpath hn

/-- A path that ends at its first component: there is no such entry, or it is not a directory. -/
theorem pathRuns_stop (hright : PathRight d dir path {dir with dataOff := noBase})
    (hstop : bytes = 0 ∨
      (behindName path ≠ [] ∧ ¬L.isDirectory (inodeAt L wild t'.media ino'))) :
    ∃ inop', PathRuns d hash unset wild (fuel+1) path dir bres ino inop t {dir with dataOff := noBase} inop' t' l := by
  have hrun : ∀ s s', s'.media = t'.media →
      resolveName L d.toH2Volume unset wild fuel dir (firstName path)
        (hash (firstName path)) bres ino s = some (bytes,b,ino',s') →
      resolveLoop L d.toH2Volume unset wild hash (fuel+1) path dir bres ino inop s =
        some ({dir with dataOff := noBase},if bytes = 0 then inop else ino',s') := by
    intro s s' hmedia hr
    rw [resolveLoop_name d hpath hr,hmedia]
    by_cases hzero : bytes = 0
    · rw [if_pos hzero,if_pos hzero]
    · rw [if_neg hzero,if_neg hzero,if_pos (hstop.resolve_left hzero)]
  refine ⟨_,hn.passes,hright,hrun t t' rfl hn.run,?_,?_⟩
  · intro io hc
    obtain ⟨heq,hins⟩ := hn.clean io hc
    refine ⟨hrun _ _ rfl heq,fun f s' hf => ?_⟩
    cases hf with
    | here _ hf => exact hins f s' hf
    | next _ hr hne hgo _ =>
      cases resolveName_unique hr heq
      exact absurd (hstop.resolve_left hne) hgo
  · intro io hc
    obtain ⟨f,s',hf,hbad⟩ := hn.fault io hc
    exact ⟨f,s',.here hpath hf,hbad⟩

/-- A path that goes on. -/
theorem pathRuns_step {out : Bref} {inop' : Option ℕ} {t'' : H2} {l' : List H2Read} (hright : PathRight d dir path out)
    (hne : bytes ≠ 0)
    (hgo : ¬(behindName path ≠ [] ∧ ¬L.isDirectory (inodeAt L wild t'.media ino')))
    (h : PathRuns d hash unset wild fuel (behindName path) b b ino' ino' t' out inop' t'' l') :
    PathRuns d hash unset wild (fuel+1) path dir bres ino inop t out inop' t'' (l ++ l') := by
  have hrun : ∀ s s', s'.media = t'.media →
      resolveName L d.toH2Volume unset wild fuel dir (firstName path)
        (hash (firstName path)) bres ino s = some (bytes,b,ino',s') →
      resolveLoop L d.toH2Volume unset wild hash (fuel+1) path dir bres ino inop s =
        resolveLoop L d.toH2Volume unset wild hash fuel (behindName path) b b ino' ino' s' := by
    intro s s' hmedia hr
    rw [resolveLoop_name d hpath hr,if_neg hne,hmedia,if_neg hgo]
  refine ⟨hn.passes.trans h.passes,hright,(hrun t t' rfl hn.run).trans h.run,?_,?_⟩
  · intro io hc
    rw [List.length_append,noFault_add] at hc
    obtain ⟨heq,hins⟩ := hn.clean io hc.1
    obtain ⟨heq',hins'⟩ := h.clean _ hc.2
    refine ⟨?_,fun f s' hf => ?_⟩
    · rw [hrun _ (t'.meets (io.drop l.length)) rfl heq,heq',List.length_append,List.drop_drop]
    · cases hf with
      | here _ hf => exact hins f s' hf
      | next _ hr _ _ hf =>
        cases resolveName_unique hr heq
        exact hins' f s' hf
  · intro io hc
    by_cases hcl : NoFault l.length io
    · have hc' : ¬NoFault l'.length (io.drop l.length) := by
        rw [List.length_append,noFault_add] at hc
        exact fun h => hc ⟨hcl,h⟩
      obtain ⟨f,s',hf,hbad⟩ := h.fault _ hc'
      exact ⟨f,s',.next hpath (hn.clean io hcl).1 hne hgo hf,hbad⟩
    · obtain ⟨f,s',hf,hbad⟩ := hn.fault io hcl
      exact ⟨f,s',.here hpath hf,hbad⟩

omit hpath hn in
/-- The walk along a path comes to an end. -/
theorem resolveLoop_runs (hdirs : ∀ dir, d.Dir L dir → DirOk L d.toH2Volume hash dir)
    (hhash : ∀ name, 2^63 ≤ hash name ∧ hash name < 2^64) (unset : ℤ) (wild : ℕ → UInt8) (path : List UInt8) {dir : Bref}
    (href : d.Ref L dir) (hdir : components path ≠ [] → d.Dir L dir) :
    ∃ N, ∀ fuel ≥ N, ∀ bres ino inop t, t.io = [] → H2Holds d.toH2Volume t →
      ∃ out inop' t' l, PathRuns d hash unset wild fuel path dir bres ino inop t out inop' t' l := by
  induction hlen : path.length using Nat.strong_induction_on generalizing path dir with
  | _ n ih =>
    by_cases hpath : path.dropWhile (· = slash) = []
    · refine ⟨1,fun fuel hf bres ino inop t ht _ => ?_⟩
      obtain ⟨fuel,rfl⟩ : ∃ m, fuel = m+1 := ⟨fuel-1,by omega⟩
      exact ⟨_,_,_,_,pathRuns_end d hpath ht⟩
    have hok := hdirs dir (hdir (by rw [components_cons hpath]; exact List.cons_ne_nil _ _))
    obtain ⟨M,hM⟩ := Filter.eventually_atTop.mp (lookup_total hok.tree.tree)
    -- the search for the first component, from each state
    have hsearch : ∀ fuel ≥ M+2^64, ∀ bres ino t, t.io = [] → H2Holds d.toH2Volume t → ∃ bytes b ino' t' l,
        NameRuns d unset wild (fuel+1) dir (firstName path)
          (hash (firstName path)) bres ino t bytes b ino' t' l := by
      intro fuel hf bres ino t ht hs
      refine resolveName_runs d hok (fun _ => href) hhash unset wild _ hM (2^64) (hhash _).2 (.inr (by omega)) hf ?_ bres ino ht hs
      intro b hb hname
      rw [← hname]
      exact hok.chain b hb
    by_cases hex : ∃ b, d.LeafBelow L dir b ∧ inodeName L (d.inode L b) = firstName path
    · obtain ⟨b,hb,hname⟩ := hex
      -- the search finds this entry
      have hfound : ∀ {fuel bres ino t bytes c ino' t' l}, NameRuns d unset wild fuel dir
          (firstName path) (hash (firstName path))
          bres ino t bytes c ino' t' l → bytes ≠ 0 ∧ c = b ∧ inodeAt L wild t'.media ino' = d.inode L b := by
        intro fuel bres ino t bytes c ino' t' l hr
        obtain ⟨-,hno⟩ | ⟨hne,hc,hcname,p,rfl,hwin⟩ := hr.right
        · exact absurd hname (hno b hb)
        · cases hok.names c hc b hb (hcname.trans hname.symm)
          exact ⟨hne,rfl,hwin⟩
      by_cases hgo : behindName path ≠ [] ∧ L.isDirectory (d.inode L b) = false
      · refine ⟨M+2^64+1+1,fun fuel hf bres ino inop t ht hs => ?_⟩
        obtain ⟨fuel,rfl⟩ : ∃ m, fuel = m+1+1 := ⟨fuel-2,by omega⟩
        obtain ⟨bytes,c,ino',t',l,hr⟩ := hsearch fuel (by omega) bres ino t ht hs
        obtain ⟨hne,rfl,hino⟩ := hfound hr
        have hstop : behindName path ≠ [] ∧ ¬L.isDirectory (inodeAt L wild t'.media ino') := by
          rw [hino,Bool.not_eq_true]
          exact hgo
        obtain ⟨inop',h⟩ := pathRuns_stop d inop hpath hr (pathRight_file d hpath hok hb hname hgo.1 hgo.2 rfl) (.inr hstop)
        exact ⟨_,_,_,_,h⟩
      · have hdirb : behindName path ≠ [] → L.isDirectory (d.inode L b) = true := by
          intro hne
          rw [not_and,Bool.not_eq_false] at hgo
          exact hgo hne
        have hentry : components (behindName path) ≠ [] → d.Dir L b := by
          intro hne
          refine .entry (hdir (by rw [components_cons hpath]; exact List.cons_ne_nil _ _)) hb (hdirb fun hnil => hne ?_)
          rw [hnil]
          rfl
        obtain ⟨N,hN⟩ := ih _ (hlen ▸ behindName_length hpath) _ (leaf_ref d (fun _ => href) hb) hentry rfl
        refine ⟨max (M+2^64+1+1) (N+1),fun fuel hf bres ino inop t ht hs => ?_⟩
        obtain ⟨fuel,rfl⟩ : ∃ m, fuel = m+1+1 := ⟨fuel-2,by omega⟩
        obtain ⟨bytes,c,ino',t',l,hr⟩ := hsearch fuel (by omega) bres ino t ht hs
        obtain ⟨hne,rfl,hino⟩ := hfound hr
        obtain ⟨out,inop',t'',l',h⟩ := hN (fuel+1) (by omega) c ino' ino' t' hr.passes.io hr.holds
        refine ⟨_,_,_,_,pathRuns_step d inop hpath hr (pathRight_step d hpath hok hb hname hdirb h.right) hne ?_ h⟩
        rw [hino]
        exact fun hc => hc.2 (hdirb hc.1)
    · refine ⟨M+2^64+1+1,fun fuel hf bres ino inop t ht hs => ?_⟩
      obtain ⟨fuel,rfl⟩ : ∃ m, fuel = m+1+1 := ⟨fuel-2,by omega⟩
      obtain ⟨bytes,c,ino',t',l,hr⟩ := hsearch fuel (by omega) bres ino t ht hs
      obtain ⟨rfl,hno⟩ | ⟨-,hc,hcname,-⟩ := hr.right
      · obtain ⟨inop',h⟩ := pathRuns_stop d inop hpath hr (pathRight_none d hpath hno rfl) (.inl rfl)
        exact ⟨_,_,_,_,h⟩
      · exact absurd ⟨c,hc,hcname⟩ hex

end Run

section Main
variable {L : H2Layout} (d : H2Disk L)

theorem dirhash_range (icrc32 : List UInt8 → ℕ) (name : List UInt8) :
    2^63 ≤ hammer2Dirhash icrc32 name ∧ hammer2Dirhash icrc32 name < 2^64 := by
  unfold hammer2Dirhash
  dsimp only
  have hcrc : dirhashSum icrc32 name []%2^32 ||| 0x80000000 < 2^32 := Nat.or_lt_two_pow (Nat.mod_lt _ (by norm_num)) (by norm_num)
  have hbit : 0x80000000 ≤ dirhashSum icrc32 name []%2^32 ||| 0x80000000 := Nat.right_le_or
  generalize dirhashSum icrc32 name []%2^32 ||| 0x80000000 = crc at hcrc hbit
  have hlow : (icrc32 name%2^32 ^^^ icrc32 name%2^32*2^16%2^32) &&& 0xFFFF0000 < 2^64 :=
    (Nat.and_le_right).trans_lt (by norm_num)
  generalize (icrc32 name%2^32 ^^^ icrc32 name%2^32*2^16%2^32) &&& 0xFFFF0000 = low at hlow
  refine ⟨?_,Nat.or_lt_two_pow (Nat.or_lt_two_pow (by omega) hlow) (by norm_num)⟩
  calc 2^63 ≤ crc*2^32 := by omega
    _ ≤ crc*2^32 ||| low := Nat.left_le_or
    _ ≤ crc*2^32 ||| low ||| 0x8000 := Nat.left_le_or

/-- An entry of a directory names a block. -/
theorem leaf_named {b : Bref} (hb : d.Ref L b) (ht : b.IsLeaf) : b.dataOff ≠ noBase := by
  intro hno
  have hlt := (d.leaves b hb ht).2.2
  unfold blocksize blockInt at hlt
  rw [hno,noBase] at hlt
  revert hlt
  decide

/-- A path leads to one entry. -/
theorem leads_unique {hash : List UInt8 → ℕ} (hdirs : ∀ dir, d.Dir L dir → DirOk L d.toH2Volume hash dir) {dir b b' : Bref}
    {names : List (List UInt8)} (hdir : names ≠ [] → d.Dir L dir) (h : d.Leads L dir names b) (h' : d.Leads L dir names b') :
    b = b' := by
  induction h with
  | here b =>
    cases h'
    rfl
  | @step dir c b names hc hd hl ih =>
    have hroot := hdir (List.cons_ne_nil _ _)
    generalize hname : inodeName L (d.inode L c) = name at h'
    cases h' with
    | step hc' hd' hl' =>
      cases (hdirs dir hroot).names c hc _ hc' hname
      exact ih (fun hne => .entry hroot hc (hd hne)) hl'

/-- A path with components leads to a leaf. -/
theorem leads_leaf {dir b : Bref} {names : List (List UInt8)} (h : d.Leads L dir names b) (hne : names ≠ []) (hdir : d.Ref L dir) :
    d.Ref L b ∧ b.IsLeaf := by
  induction h with
  | here b => exact absurd rfl hne
  | @step dir c b names hc hd hl ih =>
    have href := leaf_ref d (fun _ => hdir) hc
    by_cases hnil : names = []
    · subst hnil
      cases hl
      exact ⟨href,leaf_type hc⟩
    · exact ih hnil href

variable (unset : ℤ) (wild : ℕ → UInt8) (icrc32 : List UInt8 → ℕ) (path : List UInt8) (bres : Bref)

end Main

section Examples

/-- The checksum of the name `x`. -/
def crcX (name : List UInt8) : ℕ := if name = [120] then 0xA93C5F93 else 0

def xEntry : Bref := ⟨.inode,0xA93C5F93F6AF8000,0,2097152+10⟩

/-- A directory at 1 MB with an empty directory `x` at 2 MB. -/
def dirVolume : H2Volume where
  dev := fun o =>
    if 1048576+512 ≤ o ∧ o < 1048576+512+40 then
      [1,0,0,0,0,0,0,0,0x00,0x80,0xAF,0xF6,0x93,0x5F,0x3C,0xA9,0,0,0,0,0,0,0,0,0,0,0,0,0,0,0,0,10,0,32].getD (o-(1048576+512)) 0
    else if o = 2097152+0x50 then 1 else if o = 2097152+0x80 then 1 else if o = 2097152+256 then 120 else 0
  sroot := smallFile
  srootBlockset := fun _ => ⟨.empty,0,0,0⟩

theorem dirVolume_root {i : ℕ} (hi : i < 4) :
    i = 0 ∧ dirVolume.refOf h2LayoutV1 smallFile i = xEntry ∨ 0 < i ∧ (dirVolume.refOf h2LayoutV1 smallFile i).type = .empty := by
  interval_cases i
  · exact .inl ⟨rfl,by decide⟩
  · exact .inr ⟨by decide,by decide⟩
  · exact .inr ⟨by decide,by decide⟩
  · exact .inr ⟨by decide,by decide⟩

theorem dirVolume_x {i : ℕ} (hi : i < 4) : (dirVolume.refOf h2LayoutV1 xEntry i).type = .empty := by
  interval_cases i <;> decide

theorem dirVolume_ref {b : Bref} (h : dirVolume.Ref h2LayoutV1 b) : b = smallFile ∨ b = xEntry ∨ b.type = .empty := by
  induction h with
  | root => exact .inl rfl
  | set i hi => exact .inr (.inr rfl)
  | sub hb ht hi ih =>
    obtain rfl | rfl | he := ih
    · obtain ⟨-,hr⟩ | ⟨-,hr⟩ := dirVolume_root hi
      · exact .inr (.inl hr)
      · exact .inr (.inr hr)
    · exact .inr (.inr (dirVolume_x hi))
    · rw [he] at ht
      obtain ht | ht := ht <;> cases ht

def dirDisk : H2Disk h2LayoutV1 where
  toH2Volume := dirVolume
  wf := by
    intro b hb ht
    obtain rfl | rfl | he := dirVolume_ref hb
    · exact ⟨smallFile_wf.1,smallFile_wf.2.1⟩
    · decide
    · rw [he] at ht
      obtain ht | ht := ht <;> cases ht
  leaves := by
    intro b hb ht
    obtain rfl | rfl | he := dirVolume_ref hb
    · exact smallFile_wf
    · decide
    · rw [he] at ht
      obtain ht | ht := ht <;> cases ht

theorem dirDisk_below {b : Bref} (h : dirDisk.LeafBelow h2LayoutV1 smallFile b) : b = xEntry := by
  cases h with
  | here hi hl =>
    obtain ⟨-,hr⟩ | ⟨-,hr⟩ := dirVolume_root hi
    · exact hr
    · exact absurd hr hl.nonempty
  | down hi ht _ =>
    obtain ⟨-,hr⟩ | ⟨-,hr⟩ := dirVolume_root hi
    · rw [show dirDisk.toH2Volume = dirVolume from rfl,hr] at ht
      cases ht
    · rw [show dirDisk.toH2Volume = dirVolume from rfl,hr] at ht
      cases ht

theorem dirDisk_empty {b : Bref} (h : dirDisk.LeafBelow h2LayoutV1 xEntry b) : False := by
  cases h with
  | here hi hl => exact hl.nonempty (dirVolume_x hi)
  | down hi ht _ =>
    rw [show dirDisk.toH2Volume = dirVolume from rfl,dirVolume_x hi] at ht
    cases ht

theorem dirDisk_root : DirOk h2LayoutV1 dirDisk.toH2Volume (hammer2Dirhash crcX) smallFile where
  tree := by
    refine .node ⟨by decide,fun i hi hne => ?_,fun i hi hne => ?_,fun i hi j hj hij hne hnej => ?_,fun ht => nomatch ht⟩
      fun i hi ht => ?_
    · obtain ⟨-,hr⟩ | ⟨-,hr⟩ := dirVolume_root hi
      · exact .inl (.inl (congrArg Bref.type hr))
      · exact absurd hr hne
    · obtain ⟨-,hr⟩ | ⟨-,hr⟩ := dirVolume_root hi
      · rw [show dirDisk.toH2Volume = dirVolume from rfl,hr]
        decide
      · exact absurd hr hne
    · obtain ⟨h₁,-⟩ | ⟨-,hr⟩ := dirVolume_root hi
      · obtain ⟨h₂,-⟩ | ⟨-,hr⟩ := dirVolume_root hj
        · exact absurd (h₁.trans h₂.symm) hij
        · exact absurd hr hnej
      · exact absurd hr hne
    · obtain ⟨-,hr⟩ | ⟨-,hr⟩ := dirVolume_root hi
      · rw [show dirDisk.toH2Volume = dirVolume from rfl,hr] at ht
        cases ht
      · rw [show dirDisk.toH2Volume = dirVolume from rfl,hr] at ht
        cases ht
  plain := by decide
  single b hb := by
    rw [dirDisk_below hb]
    rfl
  chain b hb := by
    rw [dirDisk_below hb]
    decide
  keys b hb b' hb' _ := (dirDisk_below hb).trans (dirDisk_below hb').symm
  names b hb b' hb' _ := (dirDisk_below hb).trans (dirDisk_below hb').symm

theorem dirDisk_x : DirOk h2LayoutV1 dirDisk.toH2Volume (hammer2Dirhash crcX) xEntry where
  tree := by
    refine .node ⟨by decide,fun i hi hne => absurd (dirVolume_x hi) hne,fun i hi hne => absurd (dirVolume_x hi) hne,
      fun i hi j hj hij hne hnej => absurd (dirVolume_x hi) hne,fun ht => nomatch ht⟩ fun i hi ht => ?_
    rw [show dirDisk.toH2Volume = dirVolume from rfl,dirVolume_x hi] at ht
    cases ht
  plain := by decide
  single b hb := (dirDisk_empty hb).elim
  chain b hb := (dirDisk_empty hb).elim
  keys b hb := (dirDisk_empty hb).elim
  names b hb := (dirDisk_empty hb).elim

theorem dirDisk_dirs {dir : Bref} (h : dirDisk.Dir h2LayoutV1 dir) : dir = smallFile ∨ dir = xEntry := by
  induction h with
  | root => exact .inl rfl
  | entry _ hb _ ih =>
    obtain rfl | rfl := ih
    · exact .inr (dirDisk_below hb)
    · exact (dirDisk_empty hb).elim

end Examples

end Blub.Stand
