import Blub.Boot.HandOverMemory

/-! The blocks that the loaders lay out behind the files: the kernel reads back the files and the environment, and no two
of them overlap. -/
namespace Blub.Boot.HandOver
open Bytes Copies Records Strings

section Layout

/-- Where the last file ends. -/
def top : List PreloadedFile → ℕ
  | [] => 0
  | fp :: files => max (fp.fAddr+fp.fSize) (top files)

/-- The metadata that the kernel gets. -/
def added (m : Words) (L : Linker) (extra : List FileMetadata) (howto envp kernend : ℕ) : List FileMetadata :=
  extra ++ [⟨UInt16.ofNat L.kernend,le m.var kernend⟩,⟨UInt16.ofNat L.envp,le m.var envp⟩,
    ⟨UInt16.ofNat L.howto,le 4 howto⟩]

/-- The files, with what is added to the metadata of the kernel. -/
def handed (m : Words) (L : Linker) (extra : List FileMetadata) (howto envp kernend k : ℕ) (files : List PreloadedFile) :
    List PreloadedFile :=
  files.modify k fun kfp => {kfp with fMetadata := added m L extra howto envp kernend ++ kfp.fMetadata}

/-- The start of a block, and the end of everything, if no sum leaves its word. -/
def envpOf (files : List PreloadedFile) : ℕ := padded pageSize (top files)

def modulepOf (files : List PreloadedFile) (environ : List EnvVar) : ℕ :=
  padded pageSize (envpOf files+(block (environ.map assignment)).length)

def spaceEnd (m : Words) (L : Linker) (second : CStr) (extra : List FileMetadata) (howto : ℕ) (files : List PreloadedFile)
    (environ : List EnvVar) : ℕ :=
  let handed := match findKernel second files with
    | none => files
    | some k => handed m L extra howto (envpOf files) 0 k files
  padded pageSize (modulepOf files environ+extent (modulePieces m L (padded m.pad) handed))

attribute [local grind =] top

variable {w n pad : ℕ} {m : Words} {L : Linker} {files : List PreloadedFile}

theorem le_top {fp : PreloadedFile} (h : fp ∈ files) : fp.fAddr+fp.fSize ≤ top files := by
  induction files with
  | nil => cases h
  | cons f files ih =>
    obtain rfl | h := List.mem_cons.mp h
    · exact le_max_left _ _
    · exact (ih h).trans (le_max_right _ _)

theorem lastAddr_eq (h : top files < 2^w) : lastAddr w files = top files := by
  have hloop : ∀ a, files.foldl (fun addr xp =>
      if addr < (xp.fAddr+xp.fSize)%2^w then (xp.fAddr+xp.fSize)%2^w else addr) a = max a (top files) := by
    induction files with
    | nil => exact fun a => (Nat.max_zero a).symm
    | cons fp files ih =>
      intro a
      rw [top] at h
      rw [List.foldl_cons,ih (by omega),Nat.mod_eq_of_lt (by omega),top,← max_assoc]
      congr 1
      split_ifs <;> omega
  rw [lastAddr,hloop,Nat.zero_max]

theorem roundup_eq (h : n+(pad-1) < 2^w) : roundup w n pad = padded pad n := by
  rw [roundup,Nat.mod_eq_of_lt h]
  rfl

/-- Rounding up to pages stays in the word, if the page it gets to does. -/
theorem roundup_page (h : padded pageSize n < 2^m.word) : roundup m.word n pageSize = padded pageSize n := by
  refine roundup_eq ?_
  have hle := @le_padded pageSize (by decide) n
  obtain ⟨i,hi⟩ := dvd_padded pageSize n
  obtain ⟨j,hj⟩ := m.page_dvd
  rw [hj] at h ⊢
  rw [hi] at h hle
  simp only [pageSize] at h hle ⊢
  omega

theorem extent_records (step : ℕ → ℕ) (l : List Record) : extent (l.flatMap (Records.pieces step)) =
    ((l.map fun r => r.data.length).map fun n => 8+step n).sum := by
  induction l with
  | nil => rfl
  | cons r l ih => rw [List.flatMap_cons,extent_append,extent_pieces,ih,List.map_cons,List.map_cons,List.sum_cons]

theorem extent_module (step : ℕ → ℕ) (files : List PreloadedFile) : extent (modulePieces m L step files) =
    (((files.flatMap (recordsOf m L)).map fun r => r.data.length).map fun n => 8+step n).sum+8 := by
  rw [modulePieces,extent_append,extent_records]
  rfl

/-- The data of a record, with the record that ends the directory, is no longer than the directory. -/
theorem le_extent_module {step : ℕ → ℕ} {r : Record} (hr : r ∈ files.flatMap (recordsOf m L)) :
    step r.data.length+16 ≤ extent (modulePieces m L step files) := by
  have hmem : 8+step r.data.length ∈ ((files.flatMap (recordsOf m L)).map fun r => r.data.length).map fun n => 8+step n :=
    List.mem_map_of_mem (List.mem_map_of_mem hr)
  have hle := List.le_sum_of_mem hmem
  rw [extent_module]
  omega

/-- The steps of the macros are those of the records, if the directory does not leave the word. -/
theorem modulePieces_roundup (h : extent (modulePieces m L (padded m.pad) files) < 2^m.word) :
    modulePieces m L (fun n => roundup m.word n m.pad) files = modulePieces m L (padded m.pad) files := by
  have hstep : ∀ r ∈ files.flatMap (recordsOf m L),
      Records.pieces (fun n => roundup m.word n m.pad) r = Records.pieces (padded m.pad) r := by
    intro r hr
    have hle := @le_extent_module m L files (padded m.pad) r hr
    have hpad := le_padded m.pad_pos r.data.length
    have hpad' := m.pad_le
    rw [Records.pieces,Records.pieces,roundup_eq (by omega)]
  rw [modulePieces,modulePieces,List.flatMap_congr hstep]

theorem fits_module (files : List PreloadedFile) : Fits (modulePieces m L (padded m.pad) files) := by
  intro p hp
  obtain hp | hp := List.mem_append.mp hp
  · obtain ⟨r,-,hp⟩ := List.mem_flatMap.mp hp
    simp only [Records.pieces,List.mem_cons,List.not_mem_nil,or_false] at hp
    obtain rfl | rfl | rfl := hp
    · exact (length_le 4 _).le
    · exact (length_le 4 _).le
    · exact le_padded m.pad_pos _
  · simp only [endPieces,List.mem_cons,List.not_mem_nil,or_false] at hp
    obtain rfl | rfl := hp
    · exact (length_le 4 _).le
    · exact (length_le 4 _).le

theorem metadataRecords_append (l l' : List FileMetadata) :
    metadataRecords L (l ++ l') = metadataRecords L l ++ metadataRecords L l' := by
  rw [metadataRecords,List.filter_append,List.map_append]
  rfl

/-- The length of the directory does not depend on the value that is filled in. -/
theorem extent_handed (step : ℕ → ℕ) (extra : List FileMetadata) (howto envp v v' k : ℕ) (files : List PreloadedFile) :
    extent (modulePieces m L step (handed m L extra howto envp v k files)) =
      extent (modulePieces m L step (handed m L extra howto envp v' k files)) := by
  have hkernel : ∀ kfp : PreloadedFile,
      (recordsOf m L {kfp with fMetadata := added m L extra howto envp v ++ kfp.fMetadata}).map (fun r => r.data.length) =
        (recordsOf m L {kfp with fMetadata := added m L extra howto envp v' ++ kfp.fMetadata}).map
          fun r => r.data.length := by
    intro kfp
    simp only [recordsOf,otherRecords,added,metadataRecords_append,metadataRecords_cons,List.map_cons,List.map_append]
    congr 4
    split_ifs <;> simp
  rw [extent_module,extent_module]
  congr 3
  rw [handed,handed]
  induction files generalizing k with
  | nil => rw [List.modify_nil,List.modify_nil]
  | cons fp files ih =>
    cases k with
    | zero =>
      rw [List.modify_zero_cons,List.modify_zero_cons,List.flatMap_cons,List.flatMap_cons,List.map_append,List.map_append,
        hkernel]
    | succ k =>
      rw [List.modify_succ_cons,List.modify_succ_cons,List.flatMap_cons,List.flatMap_cons,List.map_append,List.map_append,ih]

end Layout

section Kinds
variable {m : Words} {L : Linker} {extra : List FileMetadata} {howto envp v : ℕ}

theorem Linker.kind_toNat (L : Linker) {t : ℕ} (ht : t ∈ [L.howto,L.envp,L.kernend]) : (UInt16.ofNat t).toNat = t := by
  have hlt := L.kinds_lt t (List.mem_append_left _ (by simp only [List.mem_cons] at ht ⊢; tauto))
  rw [UInt16.toNat_ofNat']
  omega

theorem Linker.envp_ne_kernend (L : Linker) : L.envp ≠ L.kernend := by
  have h := L.kinds_nodup
  simp only [List.cons_append,List.nodup_cons,List.mem_cons,not_or] at h
  exact h.2.1.1

/-- None of the metadata is of the two kinds that are filled in. -/
def Others (L : Linker) (extra : List FileMetadata) : Prop :=
  ∀ md ∈ extra, md.mdType.toNat ≠ L.envp ∧ md.mdType.toNat ≠ L.kernend

/-- The value is filled in where the loader has put it. -/
theorem patch_added (hextra : Others L extra) (l : List FileMetadata) :
    patchMetadata L.kernend (le m.var v) (added m L extra howto envp 0 ++ l) = added m L extra howto envp v ++ l := by
  induction extra with
  | nil =>
    have hdrop : (le m.var 0).drop (le m.var v).length = [] := List.drop_eq_nil_of_le (by simp)
    simp only [added,List.nil_append,List.cons_append,patchMetadata,L.kind_toNat (t := L.kernend) (by simp),if_true,hdrop,
      List.append_nil]
  | cons md extra ih =>
    obtain ⟨hmd,hextra⟩ := List.forall_mem_cons.mp hextra
    have hrest := ih hextra
    simp only [added,List.cons_append,patchMetadata,if_neg hmd.2] at hrest ⊢
    rw [hrest]

/-- What the kernel finds first of a kind that is copied. -/
theorem first_of {t : ℕ} (ht : t < 2^15) (fp : PreloadedFile) :
    (Module.of L fp).first t = (fp.fMetadata.find? fun md => md.mdType.toNat = t).map FileMetadata.mdData := by
  have hcopied : ∀ md : FileMetadata, md.mdType.toNat &&& L.nocopy = 0 ∧ md.mdType.toNat = t ↔ md.mdType.toNat = t :=
    fun md => and_iff_right_of_imp fun he => (copied_iff md.mdType).mpr (he ▸ ht)
  rw [Module.first,Module.of,List.find?_map,List.find?_filter]
  simp only [Function.comp_def,Option.map_map,decide_eq_true_eq,hcopied]

theorem first_added (hextra : Others L extra) (kfp : PreloadedFile) :
    (Module.of L {kfp with fMetadata := added m L extra howto envp v ++ kfp.fMetadata}).first L.kernend = some (le m.var v) ∧
    (Module.of L {kfp with fMetadata := added m L extra howto envp v ++ kfp.fMetadata}).first L.envp =
      some (le m.var envp) := by
  have hlt : ∀ t ∈ [L.howto,L.envp,L.kernend], t < 2^15 := fun t ht =>
    L.kinds_lt t (List.mem_append_left _ (by simp only [List.mem_cons] at ht ⊢; tauto))
  have hskip : ∀ t, (t = L.envp ∨ t = L.kernend) → extra.find? (fun md => md.mdType.toNat = t) = none := by
    rintro t (rfl | rfl)
    · exact List.find?_eq_none.mpr fun md hmd => by simpa using (hextra md hmd).1
    · exact List.find?_eq_none.mpr fun md hmd => by simpa using (hextra md hmd).2
  have hkernend := L.kind_toNat (t := L.kernend) (by simp)
  have henvp := L.kind_toNat (t := L.envp) (by simp)
  constructor
  · rw [first_of (hlt _ (by simp))]
    dsimp only [added]
    rw [List.append_assoc,List.find?_append,hskip _ (.inr rfl),Option.none_or]
    simp [hkernend]
  · rw [first_of (hlt _ (by simp))]
    dsimp only [added]
    rw [List.append_assoc,List.find?_append,hskip _ (.inl rfl),Option.none_or]
    simp [hkernend,henvp,L.envp_ne_kernend.symm]

end Kinds

section Environment

/-- The name and the value of a variable. -/
def splitAssignment (s : List UInt8) : List UInt8 × List UInt8 := (s.takeWhile (· ≠ 61),(s.dropWhile (· ≠ 61)).drop 1)

/-- A variable without a value counts as empty. -/
def binding (ep : EnvVar) : List UInt8 × List UInt8 := (ep.evName.bytes,(ep.evValue.map CStr.bytes).getD [])

theorem split_assignment {ep : EnvVar} (h : 61 ∉ ep.evName.bytes) : splitAssignment (assignment ep) = binding ep := by
  have hall : ∀ x ∈ ep.evName.bytes, decide (x ≠ 61) = true := fun x hx => decide_eq_true fun he => h (he ▸ hx)
  have hassign : assignment ep = ep.evName.bytes ++ 61 :: (ep.evValue.map CStr.bytes).getD [] := by
    rw [assignment,show ascii "=" = [61] from rfl,List.append_assoc]
    rfl
  rw [splitAssignment,hassign,List.takeWhile_append_of_pos hall,List.dropWhile_append_of_pos hall]
  simp [binding]

theorem assignment_string (ep : EnvVar) : assignment ep ≠ [] ∧ 0 ∉ assignment ep := by
  have hvalue : 0 ∉ (ep.evValue.map CStr.bytes).getD [] := by
    cases ep.evValue with
    | none => exact List.not_mem_nil
    | some v => exact v.nonzero
  rw [assignment,show ascii "=" = [61] from rfl]
  constructor
  · simp
  · simp [ep.evName.nonzero,hvalue]

/-- The environment that stands in memory is read back. -/
theorem read_environment {b : ℕ → UInt8} {a : ℕ} {environ : List EnvVar} (hnames : ∀ ep ∈ environ, 61 ∉ ep.evName.bytes)
    (h : Holds b a (block (environ.map assignment))) {fuel : ℕ}
    (hfuel : (block (environ.map assignment)).length ≤ fuel) :
    (readStrings b fuel a).map (List.map splitAssignment) = some (environ.map binding) := by
  have hstrings : ∀ s ∈ environ.map assignment, s ≠ [] ∧ 0 ∉ s := by
    intro s hs
    obtain ⟨ep,-,rfl⟩ := List.mem_map.mp hs
    exact assignment_string ep
  rw [readStrings_block hstrings h hfuel,Option.map_some,List.map_map]
  exact congrArg some (List.map_congr_left fun ep hep => split_assignment (hnames ep hep))

end Environment

/-- What a kernel can rely on: the directory is as long as was measured and tells of all files in order, with the
addresses of the environment and of the end of everything among the metadata of the kernel; the environment is there; and
the blocks are apart from the files and from each other. -/
structure HandsOver {σ : Type*} (m : Words) (L : Linker) (second : CStr) (extra : List FileMetadata) (howto : ℕ)
    (files : List PreloadedFile) (environ : List EnvVar) (b : ℕ → UInt8) (r : Loaded σ) : Prop where
  size : r.moduleEnd = r.modulep+r.size
  kernel : findKernel second files = some r.kernel
  files_eq : r.files = handed m L extra howto r.envp r.kernendp r.kernel files
  records : ∀ fuel, (r.files.flatMap (recordsOf m L)).length < fuel →
    read b m.pad L.modinfoEnd fuel r.modulep = some (r.files.flatMap (recordsOf m L))
  directory : ∀ fuel, (r.files.flatMap (recordsOf m L)).length < fuel →
    readDirectory L m b fuel r.modulep = some (r.files.map (Module.of L))
  envp : (((r.files.map (Module.of L))[r.kernel]?).bind fun f => f.first L.envp).map number = some r.envp
  kernend : (((r.files.map (Module.of L))[r.kernel]?).bind fun f => f.first L.kernend).map number = some r.kernendp
  environment : ∀ fuel, (block (environ.map assignment)).length ≤ fuel →
    (readStrings b fuel r.envp).map (List.map splitAssignment) = some (environ.map binding)
  envEnd : r.envEnd = r.envp+(block (environ.map assignment)).length
  files_env : ∀ fp ∈ files, Disjoint (Set.Ico fp.fAddr (fp.fAddr+fp.fSize)) (Set.Ico r.envp r.envEnd)
  files_modules : ∀ fp ∈ files, Disjoint (Set.Ico fp.fAddr (fp.fAddr+fp.fSize)) (Set.Ico r.modulep r.moduleEnd)
  env_modules : Disjoint (Set.Ico r.envp r.envEnd) (Set.Ico r.modulep r.moduleEnd)

section Loading
variable {σ : Type*} {m : Words} {L : Linker} {A : Copier σ} {copyenv : List EnvVar → ℕ × σ → ℕ × σ} {second : CStr}
  {howto k : ℕ} {addData : PreloadedFile → PreloadedFile} {extra : List FileMetadata} {files : List PreloadedFile}
  {environ : List EnvVar} {s : σ}

/-- The steps of a loader that finds a kernel. -/
theorem handOver_ok (hk : findKernel second files = some k)
    (hadd : ∀ kfp, addData kfp = {kfp with fMetadata := extra ++ kfp.fMetadata}) (hextra : Others L extra) :
    ∃ r, handOver m L A copyenv second howto addData files environ s = .ok r ∧ r.kernel = k ∧
      r.envp = roundup m.word (lastAddr m.word files) pageSize ∧ r.envEnd = (copyenv environ (r.envp,s)).1 ∧
      r.modulep = roundup m.word r.envEnd pageSize ∧
      r.size = (biCopymodules m L A (handed m L extra howto r.envp 0 k files) (0,(copyenv environ (r.envp,s)).2)).1 ∧
      r.kernendp = roundup m.word ((r.modulep+r.size)%2^m.word) pageSize ∧
      r.files = handed m L extra howto r.envp r.kernendp k files ∧
      (r.moduleEnd,r.area) = biCopymodules m L A r.files (r.modulep,(copyenv environ (r.envp,s)).2) := by
  have hfirst : ∀ envp, (files.modify k fun kfp => addData (fileAddmetadata (fileAddmetadata (fileAddmetadata kfp L.howto
      (le 4 howto)) L.envp (le m.var envp)) L.kernend (le m.var 0))) = handed m L extra howto envp 0 k files := by
    intro envp
    rw [handed]
    congr 1
    funext kfp
    rw [hadd]
    simp only [fileAddmetadata,added,List.append_assoc,List.cons_append,List.nil_append]
  have hpatch : ∀ envp v, ((handed m L extra howto envp 0 k files).modify k fun kfp =>
      {kfp with fMetadata := patchMetadata L.kernend (le m.var v) kfp.fMetadata}) =
        handed m L extra howto envp v k files := by
    intro envp v
    rw [handed,List.modify_modify_eq,handed]
    congr 1
    funext kfp
    simp only [Function.comp,patch_added hextra]
  simp only [handOver,hk,hfirst,hpatch]
  exact ⟨_,rfl,rfl,rfl,rfl,rfl,rfl,rfl,rfl,rfl⟩

theorem findKernel_lt (hk : findKernel second files = some k) : k < files.length := by
  rw [findKernel] at hk
  split at hk
  · rename_i j hj
    obtain rfl := Option.some.inj hk
    exact (List.findIdx?_eq_some_iff_getElem.mp hj).1
  · exact (List.findIdx?_eq_some_iff_getElem.mp hk).1

theorem block_pos (l : List (List UInt8)) : 0 < (block l).length := by
  rw [block,List.length_append]
  exact Nat.succ_pos _

/-- The order in which everything lies. -/
theorem layout (hk : findKernel second files = some k) : top files ≤ envpOf files ∧
    envpOf files+(block (environ.map assignment)).length ≤ modulepOf files environ ∧
    modulepOf files environ+extent (modulePieces m L (padded m.pad) (handed m L extra howto (envpOf files) 0 k files)) ≤
      spaceEnd m L second extra howto files environ := by
  refine ⟨le_padded (by decide) _,le_padded (by decide) _,?_⟩
  rw [spaceEnd,hk]
  exact le_padded (by decide) _

/-- What the loader has laid out. -/
structure LaidOut (m : Words) (L : Linker) (extra : List FileMetadata) (howto k : ℕ) (files : List PreloadedFile)
    (environ : List EnvVar) (b : ℕ → UInt8) (r : Loaded σ) : Prop where
  kernel : r.kernel = k
  envp : r.envp = envpOf files
  envEnd : r.envEnd = r.envp+(block (environ.map assignment)).length
  modulep : r.modulep = modulepOf files environ
  files_eq : r.files = handed m L extra howto r.envp r.kernendp k files
  size : r.size = extent (modulePieces m L (padded m.pad) r.files)
  moduleEnd : r.moduleEnd = r.modulep+r.size
  kernendp : r.kernendp = padded pageSize (r.modulep+r.size)
  env : Holds b r.envp (block (environ.map assignment))
  modules : Laid b r.modulep (modulePieces m L (padded m.pad) r.files)
  short : ∀ rec ∈ r.files.flatMap (recordsOf m L), rec.data.length < 2^32

variable {lo hi : ℕ}

/-- A loader whose copies are not refused and whose sums stay in their words. -/
theorem handOver_laidOut (law : Lawful A lo hi (2^32)) (hlo : lo = envpOf files)
    (hhi : hi = spaceEnd m L second extra howto files environ) (hword : hi < 2^m.word)
    (hk : findKernel second files = some k) (hadd : ∀ kfp, addData kfp = {kfp with fMetadata := extra ++ kfp.fMetadata})
    (hextra : Others L extra) (hs : law.inv s)
    (hcopyenv : A.errno (copyenv environ (lo,s)).2 = 0 →
      copyenv environ (lo,s) = puts A m.word true ((envStrings environ).map whole) (lo,s)) :
    ∃ r, handOver m L A copyenv second howto addData files environ s = .ok r ∧
      (A.errno r.area = 0 → LaidOut m L extra howto k files environ (A.byte r.area) r) := by
  obtain ⟨r,hok,hkernel,henvp,henvEnd,hmodulep,hsize,hkernend,hfiles,hmodules⟩ :=
    @handOver_ok σ m L A copyenv second howto k addData extra files environ s hk hadd hextra
  refine ⟨r,hok,fun herr => ?_⟩
  obtain ⟨htop,henv,hend⟩ := @layout m L second howto k extra files environ hk
  rw [← hhi] at hend
  rw [← hlo] at htop henv hend
  have hpos := block_pos (environ.map assignment)
  rw [lastAddr_eq (by omega),roundup_page (by rw [← envpOf,← hlo]; omega),← envpOf,← hlo] at henvp
  rw [henvp] at henvEnd hsize hfiles hmodules
  rw [biCopymodules_eq] at hsize hmodules
  have harea := congrArg Prod.snd hmodules
  dsimp only at harea
  rw [harea] at herr
  -- the environment
  have henv_ok := law.sticky_puts herr
  have henv_eq := hcopyenv henv_ok
  dsimp only at henv_ok
  rw [henv_eq] at henvEnd hsize hmodules harea herr henv_ok
  have henv_len : extent ((envStrings environ).map whole) = (block (environ.map assignment)).length := by
    rw [extent_whole,flatten_envStrings]
  have hstored := law.puts_spec hword hs (.inr rfl) le_rfl (fits_whole (envStrings environ)) (by dsimp only; omega) henv_ok
  have hready := hstored.ready (.inl (by simp [envStrings]))
  have haddr := hstored.addr
  rw [henv_len] at haddr
  dsimp only at haddr
  rw [haddr] at henvEnd
  -- the directory
  have hmodulep_eq : r.modulep = modulepOf files environ := by
    rw [hmodulep,henvEnd,hlo]
    exact roundup_page (by rw [← modulepOf]; omega)
  have hextent : extent (modulePieces m L (padded m.pad) r.files) =
      extent (modulePieces m L (padded m.pad) (handed m L extra howto lo 0 k files)) := by
    rw [hfiles]
    exact extent_handed ..
  rw [puts_addr (by exact Nat.two_pow_pos _),modulePieces_roundup (by omega),Nat.zero_add,Nat.mod_eq_of_lt (by omega),
    ← hextent] at hsize
  have hcopies : decide (r.modulep ≠ 0) = true := decide_eq_true (by omega)
  dsimp only at hmodules
  rw [hcopies,modulePieces_roundup (by omega)] at hmodules harea herr
  have hstored' := law.puts_spec (o := (r.modulep,_)) hword hstored.inv (.inl hready) (by dsimp only; omega)
    (fits_module (m := m) (L := L) r.files) (by dsimp only; omega) herr
  have hend' := congrArg Prod.fst hmodules
  rw [hstored'.addr,← hsize] at hend'
  rw [harea]
  refine ⟨hkernel,henvp.trans hlo,henvp.symm ▸ henvEnd,hmodulep_eq,henvp.symm ▸ hfiles,hsize,hend',?_,?_,hstored'.laid,?_⟩
  · have hspace : padded pageSize (r.modulep+r.size) = hi := by
      rw [hhi,spaceEnd,hk,hsize,hextent,hmodulep_eq,hlo]
    rw [hkernend,Nat.mod_eq_of_lt (by omega)]
    exact roundup_page (by omega)
  · have hlaid := laid_whole.mp hstored.laid
    rw [flatten_envStrings] at hlaid
    rw [henvp]
    -- the directory was written behind the environment
    exact holds_congr (fun x h₁ h₂ => hstored'.keeps hready x h₁ (by omega)) hlaid
  · intro rec hrec
    refine hstored'.short ⟨rec.data,padded m.pad rec.data.length⟩ (List.mem_append_left _ ?_)
    refine List.mem_flatMap.mpr ⟨rec,hrec,?_⟩
    exact List.mem_cons_of_mem _ (List.mem_cons_of_mem _ List.mem_cons_self)

/-- No record of a file ends the directory. -/
theorem record_type {files : List PreloadedFile} {rec : Record} (h : rec ∈ files.flatMap (recordsOf m L)) :
    rec.type ≠ L.modinfoEnd ∧ rec.type < 2^32 := by
  obtain ⟨fp,-,hrec⟩ := List.mem_flatMap.mp h
  obtain rfl | hrec := List.mem_cons.mp hrec
  · have hlt := L.records_lt L.modinfoName (by simp)
    exact ⟨L.types_ne.1.symm,by dsimp only; omega⟩
  · obtain ⟨-,hne,hlt⟩ := recordsOf_tail hrec
    exact ⟨hne,by omega⟩

theorem mem_handed {envp v : ℕ} {fp : PreloadedFile} (h : fp ∈ handed m L extra howto envp v k files) :
    ∃ fp' ∈ files, fp.fAddr = fp'.fAddr ∧ fp.fSize = fp'.fSize := by
  rw [handed] at h
  induction files generalizing k with
  | nil => simp at h
  | cons f files ih =>
    cases k with
    | zero =>
      rw [List.modify_zero_cons] at h
      obtain rfl | h := List.mem_cons.mp h
      · exact ⟨f,List.mem_cons_self,rfl,rfl⟩
      · exact ⟨fp,List.mem_cons_of_mem _ h,rfl,rfl⟩
    | succ k =>
      rw [List.modify_succ_cons] at h
      obtain rfl | h := List.mem_cons.mp h
      · exact ⟨fp,List.mem_cons_self,rfl,rfl⟩
      · obtain ⟨fp',hfp',heq⟩ := ih h
        exact ⟨fp',List.mem_cons_of_mem _ hfp',heq⟩

/-- What lies behind a range is apart from it. -/
theorem ico_apart {a b c d : ℕ} (h : b ≤ c) : Disjoint (Set.Ico a b) (Set.Ico c d) := by
  rw [Set.disjoint_left]
  rintro x ⟨-,hx⟩ ⟨hx',-⟩
  omega

/-- What the kernel finds about itself first. -/
theorem handed_first {envp v : ℕ} (hk : k < files.length) {t : ℕ} {data : List UInt8}
    (h : ∀ kfp : PreloadedFile,
      (Module.of L {kfp with fMetadata := added m L extra howto envp v ++ kfp.fMetadata}).first t = some data) :
    ((((handed m L extra howto envp v k files).map (Module.of L))[k]?).bind fun f => f.first t) = some data := by
  rw [handed,List.getElem?_map,List.getElem?_modify_eq,List.getElem?_eq_getElem hk]
  exact h _

/-- What is laid out is read back. -/
theorem LaidOut.handsOver {b : ℕ → UInt8} {r : Loaded σ} (h : LaidOut m L extra howto k files environ b r)
    (hword : spaceEnd m L second extra howto files environ < 2^m.word) (hk : findKernel second files = some k)
    (hextra : Others L extra) (hnames : ∀ ep ∈ environ, 61 ∉ ep.evName.bytes) :
    HandsOver m L second extra howto files environ b r := by
  have hread : ∀ fuel, (r.files.flatMap (recordsOf m L)).length < fuel →
      read b m.pad L.modinfoEnd fuel r.modulep = some (r.files.flatMap (recordsOf m L)) := by
    intro fuel hfuel
    have hend := L.records_lt L.modinfoEnd (by simp)
    refine read_laid (fun rec hrec => ?_) (by omega) h.modules hfuel
    obtain ⟨hne,hlt⟩ := record_type hrec
    exact ⟨hne,hlt,h.short rec hrec⟩
  obtain ⟨htop,henv,hend⟩ := @layout m L second howto k extra files environ hk
  have hvar := m.var_le
  have hsize : r.size = extent (modulePieces m L (padded m.pad) (handed m L extra howto (envpOf files) 0 k files)) := by
    rw [h.size,h.files_eq,h.envp]
    exact extent_handed ..
  have hspace : r.kernendp = spaceEnd m L second extra howto files environ := by
    rw [h.kernendp,spaceEnd,hk,hsize,h.modulep]
  have henvp := h.envp
  have henvEnd := h.envEnd
  have hmodulep := h.modulep
  have hmoduleEnd := h.moduleEnd
  have hfiles : ∀ fp ∈ files, fp.fAddr+fp.fSize ≤ r.envp := fun fp hfp => (le_top hfp).trans (henvp ▸ htop)
  have hkernel := findKernel_lt hk
  refine ⟨hmoduleEnd,h.kernel ▸ hk,h.kernel.symm ▸ h.files_eq,hread,fun fuel hfuel => ?_,?_,?_,fun fuel hfuel => ?_,henvEnd,
    fun fp hfp => ico_apart (hfiles fp hfp),fun fp hfp => ico_apart ((hfiles fp hfp).trans (by omega)),ico_apart (by omega)⟩
  · rw [readDirectory,hread fuel hfuel,Option.bind_some]
    refine readModules_recordsOf fun fp hfp => ?_
    rw [h.files_eq] at hfp
    obtain ⟨fp',hfp',haddr,hsize'⟩ := mem_handed hfp
    have hle := hfiles fp' hfp'
    omega
  · rw [h.files_eq,h.kernel,handed_first hkernel fun kfp => (first_added hextra kfp).2,Option.map_some,
      number_le (by omega)]
  · rw [h.files_eq,h.kernel,handed_first hkernel fun kfp => (first_added hextra kfp).1,Option.map_some,
      number_le (by omega)]
  · exact read_environment hnames h.env hfuel

end Loading

section Loaders
variable {L : Linker}

/-- What `bios_addsmapdata` adds. -/
def smapData (L : Linker) (smapbase smapattr : Option (List UInt8)) : List FileMetadata :=
  match smapbase with
  | none => []
  | some [] => []
  | some (x :: l) =>
    (match smapattr,L.smapXattr with
    | some attr,some t => [⟨UInt16.ofNat t,attr⟩]
    | _,_ => []) ++ [⟨UInt16.ofNat L.smap,x :: l⟩]

/-- What `bi_load` adds of its own. -/
def efiData (L : Linker) (fw : Firmware) : List FileMetadata :=
  (fw.map.toList.map fun efihdr => ⟨UInt16.ofNat L.efiMap,efihdr⟩) ++
    (fw.fb.toList.map fun efifb => ⟨UInt16.ofNat L.efiFb,efifb⟩) ++ [⟨UInt16.ofNat L.fwHandle,le 8 fw.systemTable⟩]

theorem biosAddsmapdata_eq (smapbase smapattr : Option (List UInt8)) (kfp : PreloadedFile) :
    biosAddsmapdata L smapbase smapattr kfp = {kfp with fMetadata := smapData L smapbase smapattr ++ kfp.fMetadata} := by
  obtain _ | _ | ⟨x,l⟩ := smapbase
  · rfl
  · rfl
  · cases hx : L.smapXattr <;> cases smapattr <;> simp [biosAddsmapdata,smapData,fileAddmetadata,hx]

theorem biLoadEfiData_eq (fw : Firmware) (kfp : PreloadedFile) :
    biLoadEfiData L fw.fb fw.map (fileAddmetadata kfp L.fwHandle (le 8 fw.systemTable)) =
      {kfp with fMetadata := efiData L fw ++ kfp.fMetadata} := by
  cases hfb : fw.fb <;> cases hmap : fw.map <;> simp [biLoadEfiData,efiData,fileAddmetadata,hfb,hmap]

/-- The kinds of metadata that are added beside those that are filled in. -/
theorem Linker.other_kind (L : Linker) {t : ℕ} (ht : t ∈ [L.smap,L.fwHandle,L.efiFb,L.efiMap] ++ L.smapXattr.toList) :
    (UInt16.ofNat t).toNat ≠ L.envp ∧ (UInt16.ofNat t).toNat ≠ L.kernend := by
  have hkinds : [L.howto,L.envp,L.kernend,L.smap,L.fwHandle,L.efiFb,L.efiMap] ++ L.smapXattr.toList =
      L.howto :: L.envp :: L.kernend :: ([L.smap,L.fwHandle,L.efiFb,L.efiMap] ++ L.smapXattr.toList) := rfl
  have hlt := L.kinds_lt t (hkinds ▸ List.mem_cons_of_mem _ (List.mem_cons_of_mem _ (List.mem_cons_of_mem _ ht)))
  have hnodup := L.kinds_nodup
  rw [hkinds,List.nodup_cons,List.nodup_cons,List.nodup_cons] at hnodup
  obtain ⟨-,henvp,hkernend,-⟩ := hnodup
  have hval : (UInt16.ofNat t).toNat = t := by
    rw [UInt16.toNat_ofNat']
    omega
  rw [hval]
  exact ⟨fun he => henvp (he ▸ List.mem_cons_of_mem _ ht),fun he => hkernend (he ▸ ht)⟩

theorem smapData_others (L : Linker) (smapbase smapattr : Option (List UInt8)) :
    Others L (smapData L smapbase smapattr) := by
  have hsmap := L.other_kind (t := L.smap) (by simp)
  obtain _ | _ | ⟨x,l⟩ := smapbase
  · exact nofun
  · exact nofun
  · intro md hmd
    cases hx : L.smapXattr with
    | none =>
      simp only [smapData,hx,List.nil_append,List.mem_singleton] at hmd
      exact hmd ▸ hsmap
    | some t =>
      have ht := L.other_kind (t := t) (by simp [hx])
      cases smapattr with
      | none =>
        simp only [smapData,List.nil_append,List.mem_singleton] at hmd
        exact hmd ▸ hsmap
      | some attr =>
        simp only [smapData,hx,List.mem_append,List.mem_singleton] at hmd
        obtain rfl | rfl := hmd
        · exact ht
        · exact hsmap

theorem efiData_others (L : Linker) (fw : Firmware) : Others L (efiData L fw) := by
  intro md hmd
  simp only [efiData,List.mem_append,List.mem_map,List.mem_singleton] at hmd
  obtain (⟨efihdr,-,rfl⟩ | ⟨efifb,-,rfl⟩) | rfl := hmd
  · exact L.other_kind (by simp)
  · exact L.other_kind (by simp)
  · exact L.other_kind (by simp)

variable {files : List PreloadedFile} {environ : List EnvVar} (hnames : ∀ ep ∈ environ, 61 ∉ ep.evName.bytes)
include hnames

/-- The loader with the memory of pc32. -/
theorem pc32_handsOver (m : Words) (hword : m.word = 32) (second : CStr) (hkernel : (findKernel second files).isSome)
    (memtop howto : ℕ) (smapbase smapattr : Option (List UInt8)) (s : Memory)
    (hspace : spaceEnd m L second (smapData L smapbase smapattr) howto files environ < 2^32) :
    ∃ r, handOver m L (pc32 memtop) (biCopyenv memtop) second howto (biosAddsmapdata L smapbase smapattr) files environ s =
        .ok r ∧ (r.area.errno = 0 →
      HandsOver m L second (smapData L smapbase smapattr) howto files environ r.area.byte r) := by
  obtain ⟨k,hk⟩ := Option.isSome_iff_exists.mp hkernel
  have hspace' := hspace
  rw [← hword] at hspace'
  have hothers := smapData_others L smapbase smapattr
  have hcopyenv : biCopyenv memtop environ (envpOf files,s) =
      puts (pc32 memtop) m.word true ((envStrings environ).map whole) (envpOf files,s) := by
    rw [hword]
    exact biCopyenv_eq memtop environ (envpOf files,s)
  obtain ⟨r,hok,hr⟩ := @handOver_laidOut _ m L (pc32 memtop) (biCopyenv memtop) second howto k _ _ files environ s _ _
    (pc32Lawful memtop (envpOf files) hspace) rfl rfl hspace' hk (biosAddsmapdata_eq smapbase smapattr) hothers trivial
    fun _ => hcopyenv
  exact ⟨r,hok,fun herr => (hr herr).handsOver hspace' hk hothers hnames⟩

theorem efi_handsOver (area : EfiCopy.Area) (hkernel : (findKernel elf64Kernel files).isSome) (fw : Firmware)
    (s : Staged) (hsmall : area.stagingEnd-area.staging ≤ EfiCopy.stagePages*4096) (hbased : Based area (envpOf files) s)
    (hspace : area.staging+spaceEnd efiWords L elf64Kernel (efiData L fw) fw.howto files environ < 2^64) :
    ∃ r, handOver efiWords L (efi area) (efiCopyenv area) elf64Kernel fw.howto
        (fun kfp => biLoadEfiData L fw.fb fw.map (fileAddmetadata kfp L.fwHandle (le 8 fw.systemTable))) files environ s =
        .ok r ∧ (r.area.errno = 0 →
      HandsOver efiWords L elf64Kernel (efiData L fw) fw.howto files environ ((efi area).byte r.area) r) := by
  obtain ⟨k,hk⟩ := Option.isSome_iff_exists.mp hkernel
  have hothers := efiData_others L fw
  have hsmall' : area.stagingEnd-area.staging < 2^32 := by
    rw [EfiCopy.stagePages] at hsmall
    omega
  have hword : spaceEnd efiWords L elf64Kernel (efiData L fw) fw.howto files environ < 2^64 := by omega
  obtain ⟨-,henv,hend⟩ := @layout efiWords L elf64Kernel fw.howto k (efiData L fw) files environ hk
  have hcopyenv : (efiCopyenv area environ (envpOf files,s)).2.errno = 0 → efiCopyenv area environ (envpOf files,s) =
      puts (efi area) 64 true ((envStrings environ).map whole) (envpOf files,s) := by
    refine efiCopyenv_ok hsmall' hspace hbased ?_
    rw [flatten_envStrings]
    omega
  obtain ⟨r,hok,hr⟩ := @handOver_laidOut _ efiWords L (efi area) (efiCopyenv area) elf64Kernel fw.howto k _ _ files environ
    s _ _ (efiLawful (envpOf files) hsmall' hspace) rfl rfl hword hk (biLoadEfiData_eq fw) hothers hbased hcopyenv
  exact ⟨r,hok,fun herr => (hr herr).handsOver hword hk hothers hnames⟩

end Loaders

/-- In each loader that finds a root device and a kernel, and in which neither a file nor what is laid out behind the files
leaves the address space: if no copy is refused, the kernel gets all that it is to get. -/
theorem biLoad_handsOver (L : Linker) (files : List PreloadedFile) (environ : List EnvVar)
    (hnames : ∀ ep ∈ environ, 61 ∉ ep.evName.bytes) :
    (∀ (memtop : ℕ) (pc : Pc) (s : Memory), pc.rootdev → pc.bootdevnr ≠ -1 → (findKernel elf32Kernel files).isSome →
      spaceEnd words32 L elf32Kernel (smapData L pc.smapbase pc.smapattr) pc.howto files environ < 2^32 →
      ∃ r, biLoad32 L memtop pc files environ s = .ok r ∧ (r.area.errno = 0 →
        HandsOver words32 L elf32Kernel (smapData L pc.smapbase pc.smapattr) pc.howto files environ r.area.byte r)) ∧
    (∀ (memtop : ℕ) (pc : Pc) (s : Memory), pc.checkcpu → pc.rootdev → (findKernel elf64Kernel files).isSome →
      spaceEnd words64 L elf64Kernel (smapData L pc.smapbase pc.smapattr) pc.howto files environ < 2^32 →
      ∃ r, biLoad64 L memtop pc files environ s = .ok r ∧ (r.area.errno = 0 →
        HandsOver words64 L elf64Kernel (smapData L pc.smapbase pc.smapattr) pc.howto files environ r.area.byte r)) ∧
    (∀ (area : EfiCopy.Area) (fw : Firmware) (s : Staged), fw.rootdev → (findKernel elf64Kernel files).isSome →
      area.stagingEnd-area.staging ≤ EfiCopy.stagePages*4096 → Based area (envpOf files) s →
      area.staging+spaceEnd efiWords L elf64Kernel (efiData L fw) fw.howto files environ < 2^64 →
      ∃ r, biLoad L area fw files environ s = .ok r ∧ (r.area.errno = 0 →
        HandsOver efiWords L elf64Kernel (efiData L fw) fw.howto files environ ((efi area).byte r.area) r)) := by
  refine ⟨?_,?_,?_⟩
  · intro memtop pc s hroot hdev hkernel hspace
    rw [biLoad32,if_neg (not_not.mpr hroot),if_neg hdev]
    exact pc32_handsOver hnames words32 rfl elf32Kernel hkernel memtop pc.howto pc.smapbase pc.smapattr s hspace
  · intro memtop pc s hcpu hroot hkernel hspace
    rw [biLoad64,if_neg (not_not.mpr hcpu),if_neg (not_not.mpr hroot)]
    exact pc32_handsOver hnames words64 rfl elf64Kernel hkernel memtop pc.howto pc.smapbase pc.smapattr s hspace
  · intro area fw s hroot hkernel hsmall hbased hspace
    rw [biLoad,if_neg (not_not.mpr hroot)]
    exact efi_handsOver hnames area hkernel fw s hsmall hbased hspace

section Runs

/-- The numbers of the headers. -/
def linker : Linker where
  modinfoEnd := 0
  modinfoName := 1
  modinfoType := 2
  modinfoAddr := 3
  modinfoSize := 4
  modinfoArgs := 6
  modinfoMetadata := 0x8000
  nocopy := 0x8000
  howto := 7
  envp := 6
  kernend := 8
  smap := 0x1001
  smapXattr := some 0x1002
  fwHandle := 0xc
  efiFb := 0x1005
  efiMap := 0x1004
  metadata_eq := rfl
  nocopy_eq := rfl
  records_nodup := by decide
  records_lt := by decide
  kinds_nodup := by decide
  kinds_lt := by decide

/-- A kernel of 1 MiB, with an argument and metadata of which one is not copied. -/
def kernelFile : PreloadedFile where
  fName := ⟨ascii "kernel",by decide⟩
  fType := elfKernel
  fArgs := some ⟨ascii "-v",by decide⟩
  fAddr := 0x200000
  fSize := 0x100000
  fMetadata := [⟨3,[1,2,3]⟩,⟨0x8001,[4]⟩]

def moduleFile (addr size : ℕ) : PreloadedFile where
  fName := ⟨ascii "snd",by decide⟩
  fType := ⟨ascii "elf module",by decide⟩
  fArgs := none
  fAddr := addr
  fSize := size
  fMetadata := []

def vars : List EnvVar := [⟨⟨ascii "a",by decide⟩,some ⟨ascii "b=c",by decide⟩⟩,⟨⟨ascii "d",by decide⟩,none⟩]

def pc : Pc := ⟨true,true,0,0,some [5,6],none⟩

def firmware : Firmware := ⟨true,0,0x7000000,none,some [1,2,3,4,5]⟩

def area : EfiCopy.Area := ⟨0x10000000,0x16000000,by norm_num,by norm_num,by norm_num⟩

/-- The kernel was loaded first. -/
def staged : Staged := ⟨⟨0x10000000-0x200000,true,fun _ => 0⟩,0⟩

def loaded : List PreloadedFile := [kernelFile,moduleFile 0x300000 0x1001]

/-- A kernel and a module behind it, in each loader. -/
theorem biLoad_handsOver_module :
    (∃ r, biLoad32 linker 0x1000000 pc loaded vars ⟨fun _ => 0,0⟩ = .ok r ∧
      HandsOver words32 linker elf32Kernel (smapData linker pc.smapbase pc.smapattr) pc.howto loaded vars r.area.byte r) ∧
    (∃ r, biLoad64 linker 0x1000000 pc loaded vars ⟨fun _ => 0,0⟩ = .ok r ∧
      HandsOver words64 linker elf64Kernel (smapData linker pc.smapbase pc.smapattr) pc.howto loaded vars r.area.byte r) ∧
    ∃ r, biLoad linker area firmware loaded vars staged = .ok r ∧
      HandsOver efiWords linker elf64Kernel (efiData linker firmware) firmware.howto loaded vars
        ((efi area).byte r.area) r := by
  obtain ⟨h₁,h₂,h₃⟩ := biLoad_handsOver linker loaded vars (by decide)
  refine ⟨?_,?_,?_⟩
  · obtain ⟨r,hr,hhands⟩ := h₁ 0x1000000 pc ⟨fun _ => 0,0⟩ rfl (by decide) (by decide) (by decide)
    have herrno : (biLoad32 linker 0x1000000 pc loaded vars ⟨fun _ => 0,0⟩).toOption.map (fun r => r.area.errno) =
        some 0 := by decide
    rw [hr] at herrno
    exact ⟨r,hr,hhands (Option.some.inj herrno)⟩
  · obtain ⟨r,hr,hhands⟩ := h₂ 0x1000000 pc ⟨fun _ => 0,0⟩ rfl rfl (by decide) (by decide)
    have herrno : (biLoad64 linker 0x1000000 pc loaded vars ⟨fun _ => 0,0⟩).toOption.map (fun r => r.area.errno) =
        some 0 := by decide
    rw [hr] at herrno
    exact ⟨r,hr,hhands (Option.some.inj herrno)⟩
  · have hbased : Based area (envpOf loaded) staged := fun _ => ⟨0x200000,by decide,by decide⟩
    obtain ⟨r,hr,hhands⟩ := h₃ area firmware staged rfl (by decide) (by decide) hbased (by decide)
    have herrno : (biLoad linker area firmware loaded vars staged).toOption.map (fun r => r.area.errno) = some 0 := by
      decide +kernel
    rw [hr] at herrno
    exact ⟨r,hr,hhands (Option.some.inj herrno)⟩

/-- A module whose end leaves the word, so that the environment is laid over it. -/
theorem biLoad32_overlaps : ∃ r,
    biLoad32 linker 0x1000000 pc [kernelFile,moduleFile 0x300000 0xffe00000] vars ⟨fun _ => 0,0⟩ = .ok r ∧
      r.area.errno = 0 ∧ ¬ HandsOver words32 linker elf32Kernel (smapData linker pc.smapbase pc.smapattr) pc.howto
        [kernelFile,moduleFile 0x300000 0xffe00000] vars r.area.byte r := by
  have hrun : (biLoad32 linker 0x1000000 pc [kernelFile,moduleFile 0x300000 0xffe00000] vars ⟨fun _ => 0,0⟩).toOption.map
      (fun r => (r.envp,r.envEnd,r.area.errno)) = some (0x300000,0x30000a,0) := by decide
  cases hok : biLoad32 linker 0x1000000 pc [kernelFile,moduleFile 0x300000 0xffe00000] vars ⟨fun _ => 0,0⟩ with
  | error e =>
    rw [hok] at hrun
    cases hrun
  | ok r =>
    rw [hok] at hrun
    obtain ⟨henvp,hend,herrno⟩ : r.envp = 0x300000 ∧ r.envEnd = 0x30000a ∧ r.area.errno = 0 := by
      simpa [Except.toOption] using hrun
    refine ⟨r,rfl,herrno,fun h => ?_⟩
    have hdisjoint := h.files_env (moduleFile 0x300000 0xffe00000) (by simp)
    rw [henvp,hend] at hdisjoint
    have hfile : 0x300000 ∈ Set.Ico 0x300000 (0x300000+0xffe00000) := ⟨by decide,by decide⟩
    have henv : 0x300000 ∈ Set.Ico 0x300000 0x30000a := ⟨by decide,by decide⟩
    exact Set.disjoint_left.mp hdisjoint hfile henv

end Runs

end Blub.Boot.HandOver
