import Mathlib.Data.List.TakeWhile
import Blub.Lib.LastWrite
import Blub.Lib.Text
import Blub.Stand.Bootp

/-! The walk of `vend_rfc1048` with the bytes that it reads and the places in `rootpath` and `hostname`
that it writes, and the option lists that it is made for. -/
namespace Blub.Stand.Rfc1048
open Blub.Bytes Blub.LastWrite Blub.Text

def tagPad : UInt8 := 0

def addresses : List UInt8 := [tagSubnetMask,tagGateway,tagSwapserver,tagServerid]
def texts : List UInt8 := [tagRootpath,tagHostname]
def supported : List UInt8 := addresses ++ texts ++ [tagDhcpMsgtype]

section Model
variable (b : ℕ → UInt8) (e : UInt8)

/-- The bytes that `strncpy` reads from `o` on: up to a zero, and no more than `fnameSize`. -/
def strncpyReads (o : ℕ) : List ℕ := ((List.range fnameSize).filter fun j => decide (∀ i < j, b (o+i) ≠ 0)).map (o + ·)

/-- What is read for an option besides its tag and its size. -/
def valueReads (o : Opt) : List ℕ :=
  if o.tag ∈ addresses then [o.val,o.val+1,o.val+2,o.val+3]
  else if o.tag ∈ texts then strncpyReads b o.val
  else if o.tag = tagDhcpMsgtype then [o.val]
  else []

/-- What is written of `rootpath` or `hostname`. -/
def textWrites (o : Opt) : List ℕ := if o.tag ∈ texts then List.range fnameSize ++ [o.size] else []

structure Trace where
  taken : Bool
  vars : BootpVars
  read : List ℕ
  written : List ℕ

/-- The loop of `vend_rfc1048`, at `cp`. The size is read before the end is noticed. -/
def walk : ℕ → ℕ → Trace → Option Trace
  | 0, _, _ => none
  | fuel+1, cp, t =>
    if bootpVendsize ≤ cp then some t
    else
      let o : Opt := ⟨b cp,cp+2,(b (cp+1)).toNat⟩
      let t := {t with read := t.read ++ [cp,cp+1]}
      if o.tag = tagEnd then some t
      else
        let t := {t with read := t.read ++ valueReads b o, written := t.written ++ textWrites o}
        if o.tag = tagDhcpMsgtype ∧ b o.val ≠ e then some {t with taken := false}
        else walk fuel (o.val+o.size) {t with vars := setOption b t.vars o}

/-- `vend_rfc1048`, with what it touches. -/
def vendTrace (v : BootpVars) : Option Trace := walk b e bootpVendsize 4 ⟨true,v,[],[]⟩

/-- The options that are met, with the end or the wrong message type that stops the walk. -/
def metFrom : ℕ → ℕ → List Opt
  | 0, _ => []
  | fuel+1, cp =>
    if bootpVendsize ≤ cp then []
    else
      let o : Opt := ⟨b cp,cp+2,(b (cp+1)).toNat⟩
      o :: if o.tag = tagEnd ∨ WrongType b e o then [] else metFrom fuel (o.val+o.size)

def met : List Opt := metFrom b e bootpVendsize 4

/-- The options that are stored from a place on. -/
def storedFrom (cp : ℕ) : List Opt := (optionsFrom b bootpVendsize cp).takeWhile fun o => ¬ WrongType b e o

def stored : List Opt := storedFrom b e 4

def optReads (o : Opt) : List ℕ := [o.val-2,o.val-1] ++ valueReads b o

attribute [local grind =] walk metFrom

end Model

section Walk
variable {b : ℕ → UInt8} {e : UInt8}

theorem valueReads_end {o : Opt} (h : o.tag = tagEnd) : valueReads b o = [] := by
  simp [valueReads,h,addresses,texts,tagEnd,tagSubnetMask,tagGateway,tagSwapserver,tagServerid,tagRootpath,tagHostname,
    tagDhcpMsgtype]

theorem textWrites_end {o : Opt} (h : o.tag = tagEnd) : textWrites o = [] := by
  simp [textWrites,h,texts,tagEnd,tagRootpath,tagHostname]

/-- The walk ends, with what `vend_rfc1048` returns and stores. -/
theorem walk_eq (fuel cp : ℕ) (t : Trace) (hfuel : bootpVendsize-cp < fuel) (ht : t.taken = true) :
    walk b e fuel cp t = some ⟨(vendLoop b e fuel cp t.vars).1,(vendLoop b e fuel cp t.vars).2,
      t.read ++ (metFrom b e fuel cp).flatMap (optReads b),t.written ++ (metFrom b e fuel cp).flatMap textWrites⟩ := by
  induction fuel generalizing cp t with
  | zero => omega
  | succ fuel ih =>
    obtain ⟨taken,v,read,written⟩ := t
    simp only at ht
    subst ht
    simp only [walk,vendLoop,metFrom]
    by_cases hcp : bootpVendsize ≤ cp
    · simp [hcp]
    rw [if_neg hcp,if_neg hcp,if_neg hcp]
    have hreads : ∀ o : Opt, o.val = cp+2 → [cp,cp+1] ++ valueReads b o = optReads b o := by
      intro o ho
      simp [optReads,ho]
    by_cases hend : b cp = tagEnd
    · rw [if_pos hend,if_pos hend,if_pos (Or.inl hend),List.flatMap_singleton,List.flatMap_singleton,
        ← hreads _ rfl,valueReads_end hend,textWrites_end hend,List.append_nil,List.append_nil]
    rw [if_neg hend,if_neg hend]
    by_cases hwrong : b cp = tagDhcpMsgtype ∧ b (cp+2) ≠ e
    · have hstop : b cp = tagEnd ∨ WrongType b e ⟨b cp,cp+2,(b (cp+1)).toNat⟩ := .inr hwrong
      rw [if_pos hwrong,if_pos hwrong,if_pos hstop,List.flatMap_singleton,List.flatMap_singleton,
        ← hreads _ rfl,List.append_assoc]
    · have hnone : ¬ (b cp = tagEnd ∨ WrongType b e ⟨b cp,cp+2,(b (cp+1)).toNat⟩) := not_or.mpr ⟨hend,hwrong⟩
      rw [if_neg hwrong,if_neg hwrong,if_neg hnone,ih _ _ (by omega) rfl,List.flatMap_cons,List.flatMap_cons,
        ← hreads _ rfl]
      simp only [List.append_assoc]

theorem vendTrace_eq (v : BootpVars) :
    vendTrace b e v = some ⟨(vendRfc1048 b e v).1,(vendRfc1048 b e v).2,(met b e).flatMap (optReads b),
      (met b e).flatMap textWrites⟩ :=
  walk_eq bootpVendsize 4 ⟨true,v,[],[]⟩ (by decide) rfl

/-- What is stored is what the walk met before it stopped. -/
theorem stored_subset_met {fuel cp : ℕ} {o : Opt}
    (h : o ∈ (optionsFrom b fuel cp).takeWhile fun o => ¬ WrongType b e o) : o ∈ metFrom b e fuel cp := by
  induction fuel generalizing cp with
  | zero => cases h
  | succ fuel ih =>
    rw [optionsFrom] at h
    rw [metFrom]
    by_cases hstop : bootpVendsize ≤ cp ∨ b cp = tagEnd
    · rw [if_pos hstop] at h
      cases h
    rw [if_neg hstop] at h
    rw [not_or] at hstop
    rw [if_neg hstop.1]
    by_cases hwrong : WrongType b e ⟨b cp,cp+2,(b (cp+1)).toNat⟩
    · rw [List.takeWhile_cons_of_neg (by simpa using hwrong)] at h
      cases h
    · rw [List.takeWhile_cons_of_pos (by simpa using hwrong),List.mem_cons] at h
      simp only [hstop.2,hwrong,or_self,if_false,List.mem_cons]
      exact h.imp_right ih

theorem storeUntil_snd (l : List Opt) (v : BootpVars) :
    (storeUntil b e l v).2 = (l.takeWhile fun o => ¬ WrongType b e o).foldl (setOption b) v := by
  induction l generalizing v with
  | nil => rfl
  | cons o l ih =>
    by_cases hwrong : WrongType b e o
    · rw [storeUntil,if_pos hwrong,List.takeWhile_cons_of_neg (by simpa using hwrong)]
      rfl
    · rw [storeUntil,if_neg hwrong,List.takeWhile_cons_of_pos (by simpa using hwrong),ih]
      rfl

theorem vendRfc1048_vars (v : BootpVars) : (vendRfc1048 b e v).2 = (stored b e).foldl (setOption b) v := by
  rw [vendRfc1048,vendLoop_eq,storeUntil_snd]
  rfl

end Walk

section Inside
variable {b : ℕ → UInt8} {e : UInt8}

/-- All that is looked at for an option lies in the vendor area, and a text is shorter than its array. -/
structure Inside (b : ℕ → UInt8) (o : Opt) : Prop where
  size : o.val ≤ bootpVendsize
  address : o.tag ∈ addresses → o.val+4 ≤ bootpVendsize
  text : o.tag ∈ texts → o.size < fnameSize ∧
    (o.val+fnameSize ≤ bootpVendsize ∨ ∃ j, o.val+j < bootpVendsize ∧ b (o.val+j) = 0)
  msgtype : o.tag = tagDhcpMsgtype → o.val < bootpVendsize

theorem mem_strncpyReads {o r : ℕ} :
    r ∈ strncpyReads b o ↔ ∃ j < fnameSize, (∀ i < j, b (o+i) ≠ 0) ∧ o+j = r := by
  simp [strncpyReads,and_assoc]

/-- `strncpy` stays in the area when it ends there, at its limit or at a zero. -/
theorem strncpyReads_inside {o : ℕ} (ho : o ≤ bootpVendsize) : (∀ r ∈ strncpyReads b o, r < bootpVendsize) ↔
    o+fnameSize ≤ bootpVendsize ∨ ∃ j, o+j < bootpVendsize ∧ b (o+j) = 0 := by
  constructor
  · intro h
    by_contra hno
    rw [not_or,not_le] at hno
    have hread : o+(bootpVendsize-o) ∈ strncpyReads b o :=
      mem_strncpyReads.mpr ⟨bootpVendsize-o,by omega,fun i hi hz => hno.2 ⟨i,by omega,hz⟩,rfl⟩
    have hlt := h _ hread
    omega
  · rintro h r hr
    obtain ⟨j,hj,hnz,rfl⟩ := mem_strncpyReads.mp hr
    obtain hfit | ⟨i,hi,hz⟩ := h
    · omega
    · have hji : j ≤ i := by
        by_contra hlt
        exact hnz i (by omega) hz
      omega

theorem disjoint_tags {t : UInt8} : (t ∈ texts → t ∉ addresses) ∧ (t = tagDhcpMsgtype → t ∉ addresses ∧ t ∉ texts) := by
  refine ⟨fun h => ?_,?_⟩
  · obtain rfl | rfl : t = tagRootpath ∨ t = tagHostname := by simpa [texts] using h
    · decide
    · decide
  · rintro rfl
    decide

/-- An option is inside exactly when all that is read and written for it is. -/
theorem inside_iff {o : Opt} (ho : 2 ≤ o.val) :
    Inside b o ↔ (∀ r ∈ optReads b o, r < bootpVendsize) ∧ ∀ w ∈ textWrites o, w < fnameSize := by
  have hhead : (∀ r ∈ optReads b o, r < bootpVendsize) ↔
      o.val ≤ bootpVendsize ∧ ∀ r ∈ valueReads b o, r < bootpVendsize := by
    simp only [optReads,List.cons_append,List.nil_append,List.forall_mem_cons]
    exact ⟨fun ⟨_,h₁,h₂⟩ => ⟨by omega,h₂⟩,fun ⟨h₁,h₂⟩ => ⟨by omega,by omega,h₂⟩⟩
  have hwrites : o.tag ∈ texts → ((∀ w ∈ textWrites o, w < fnameSize) ↔ o.size < fnameSize) := by
    intro h
    rw [textWrites,if_pos h,List.forall_mem_append,List.forall_mem_singleton,and_iff_right_iff_imp]
    exact fun _ w hw => List.mem_range.mp hw
  have hnowrites : o.tag ∉ texts → ∀ w ∈ textWrites o, w < fnameSize := by
    intro h w hw
    rw [textWrites,if_neg h] at hw
    cases hw
  rw [hhead]
  by_cases haddr : o.tag ∈ addresses
  · have hntext : o.tag ∉ texts := fun h => disjoint_tags.1 h haddr
    have hnmsg : o.tag ≠ tagDhcpMsgtype := fun h => (disjoint_tags.2 h).1 haddr
    rw [valueReads,if_pos haddr]
    constructor
    · intro h
      have hin := h.address haddr
      exact ⟨⟨h.size,by simp; omega⟩,hnowrites hntext⟩
    · rintro ⟨⟨h₁,h₂⟩,-⟩
      exact ⟨h₁,fun _ => h₂ (o.val+3) (by simp),fun h => absurd h hntext,fun h => absurd h hnmsg⟩
  by_cases htext : o.tag ∈ texts
  · have hnmsg : o.tag ≠ tagDhcpMsgtype := fun h => (disjoint_tags.2 h).2 htext
    rw [valueReads,if_neg haddr,if_pos htext,hwrites htext]
    constructor
    · intro h
      exact ⟨⟨h.size,(strncpyReads_inside h.size).mpr (h.text htext).2⟩,(h.text htext).1⟩
    · rintro ⟨⟨h₁,h₂⟩,h₃⟩
      exact ⟨h₁,fun h => absurd h haddr,fun _ => ⟨h₃,(strncpyReads_inside h₁).mp h₂⟩,fun h => absurd h hnmsg⟩
  rw [valueReads,if_neg haddr,if_neg htext]
  constructor
  · intro h
    refine ⟨⟨h.size,?_⟩,hnowrites htext⟩
    split_ifs with hmsg
    · simpa using h.msgtype hmsg
    · simp
  · rintro ⟨⟨h₁,h₂⟩,-⟩
    refine ⟨h₁,fun h => absurd h haddr,fun h => absurd h htext,fun hmsg => ?_⟩
    rw [if_pos hmsg] at h₂
    exact h₂ o.val (by simp)

theorem two_le_val {fuel cp : ℕ} {o : Opt} (h : o ∈ metFrom b e fuel cp) : 2 ≤ o.val := by
  induction fuel generalizing cp with
  | zero => cases h
  | succ fuel ih =>
    rw [metFrom] at h
    split_ifs at h
    · cases h
    · obtain rfl | h := List.mem_cons.mp h
      · exact Nat.le_add_left _ _
      · split_ifs at h
        · cases h
        · exact ih h

end Inside

section Values
variable {b : ℕ → UInt8} {e : UInt8}

/-- What one of the variables holds. -/
inductive Value
  | address (a : UInt32)
  | text (s : List UInt8)
  | told (yes : Bool)
  deriving DecidableEq

/-- The variable that options with this tag set. -/
def setting (v : BootpVars) (k : UInt8) : Value :=
  if k = tagSubnetMask then .address v.smask
  else if k = tagGateway then .address v.gateip
  else if k = tagSwapserver then .address v.rootip
  else if k = tagServerid then .address v.dhcpServerip
  else if k = tagRootpath then .text (textOf v.rootpath fnameSize)
  else if k = tagHostname then .text (textOf v.hostname fnameSize)
  else .told v.dhcpOk

/-- The value that an option carries. -/
def carried (b : ℕ → UInt8) (o : Opt) : Value :=
  if o.tag ∈ addresses then .address (beAddr b o.val)
  else if o.tag ∈ texts then .text (textOf (fun j => b (o.val+j)) o.size)
  else .told true

/-- Both texts have a zero in their array. -/
def Ended (v : BootpVars) : Prop := (∃ j < fnameSize, v.rootpath j = 0) ∧ ∃ j < fnameSize, v.hostname j = 0

/-- A text that is shorter than the array is copied as it is. -/
theorem textOf_textOption (old : ℕ → UInt8) {o size : ℕ} (h : size < fnameSize) :
    textOf (textOption old b o size) fnameSize = textOf (fun j => b (o+j)) size := by
  obtain ⟨m,hm,hnz,hend⟩ := exists_end (fun j => b (o+j)) size
  have hin : ∀ j < m, textOption old b o size j = b (o+j) := by
    intro j hj
    rw [textOption,Function.update_of_ne (by omega),if_neg (by omega),if_pos fun i hi => hnz i (by omega)]
  have hzero : textOption old b o size m = 0 := by
    obtain rfl | hz := hend
    · exact Function.update_self ..
    · by_cases hms : m = size
      · rw [hms]
        exact Function.update_self ..
      · rw [textOption,Function.update_of_ne hms,if_neg (by omega),if_neg fun hall => hall m (Nat.lt_succ_self m) hz]
  rw [textOf_eq hm hnz hend,textOf_eq (by omega) (fun j hj => ?_) (.inr hzero)]
  · exact List.map_congr_left fun j hj => hin j (List.mem_range.mp hj)
  · rw [hin j hj]
    exact hnz j hj

/-- An option sets its own variable to what it carries. -/
theorem setting_setOption {o : Opt} {k : UInt8} (hk : k ∈ supported) (h : o.tag ∈ texts → o.size < fnameSize)
    (v : BootpVars) : setting (setOption b v o) k = if o.tag = k then carried b o else setting v k := by
  by_cases ho : o.tag = k
  · subst ho
    rw [if_pos rfl]
    simp only [supported,addresses,texts,List.cons_append,List.nil_append,List.mem_cons,List.not_mem_nil,or_false] at hk
    obtain ht | ht | ht | ht | ht | ht | ht := hk
    all_goals simp [setting,setOption,carried,ht,addresses,texts,tagGateway,tagSubnetMask,tagSwapserver,tagRootpath,
      tagHostname,tagDhcpMsgtype,tagServerid]
    all_goals exact textOf_textOption _ (h (by simp [ht,texts]))
  · rw [if_neg ho]
    simp only [supported,addresses,texts,List.cons_append,List.nil_append,List.mem_cons,List.not_mem_nil,or_false] at hk
    unfold setOption
    -- whatever another option sets, the variable of `k` is another one
    split_ifs
    all_goals
      obtain rfl | rfl | rfl | rfl | rfl | rfl | rfl := hk
      all_goals first
        | contradiction
        | rfl

/-- A text that was set has a zero at its size, and the zero of the other one stays. -/
theorem Ended.setOption {o : Opt} (h : o.tag ∈ texts → o.size < fnameSize) {v : BootpVars} (hv : Ended v) :
    Ended (setOption b v o) := by
  have hsized : ∀ old : ℕ → UInt8, o.tag ∈ texts → ∃ j < fnameSize, textOption old b o.val o.size j = 0 :=
    fun old ht => ⟨o.size,h ht,Function.update_self ..⟩
  unfold Stand.setOption
  split_ifs with h₁ h₂ h₃ h₄ h₅ h₆ h₇
  · exact hv
  · exact hv
  · exact hv
  · exact ⟨hsized _ (by simp [texts,h₄]),hv.2⟩
  · exact ⟨hv.1,hsized _ (by simp [texts,h₅])⟩
  · exact hv
  · exact hv
  · exact hv

theorem Ended.foldl {l : List Opt} (h : ∀ o ∈ l, o.tag ∈ texts → o.size < fnameSize) {v : BootpVars} (hv : Ended v) :
    Ended (l.foldl (Stand.setOption b) v) := by
  induction l generalizing v with
  | nil => exact hv
  | cons o l ih => exact ih (fun o' ho' => h o' (List.mem_cons_of_mem _ ho')) (hv.setOption (h o List.mem_cons_self))

/-- The variable of an option after a list of options: what the last one carries. -/
theorem setting_foldl {l : List Opt} (h : ∀ o ∈ l, o.tag ∈ texts → o.size < fnameSize) {k : UInt8} (hk : k ∈ supported)
    (v : BootpVars) : setting (l.foldl (setOption b) v) k = (last Opt.tag l k).elim (setting v k) (carried b) :=
  @foldl_last _ _ _ _ _ _ _ setting _ _ l v fun v o ho => setting_setOption hk (h o ho) v

/-- Any variable may hold something else before. -/
theorem exists_setting_ne (k : UInt8) (x : Value) : ∃ v, setting v k ≠ x := by
  have hne : setting ⟨0,0,0,fun _ => 0,fun _ => 0,0,false⟩ k ≠ setting ⟨1,1,1,fun _ => 1,fun _ => 1,1,true⟩ k := by
    unfold setting
    split_ifs
    all_goals decide
  by_contra hall
  push Not at hall
  exact hne ((hall _).trans (hall _).symm)

theorem map_carried_eq_iff {k : UInt8} {x y : Option Opt} : x.map (carried b) = y.map (carried b) ↔
    ∀ v, x.elim (setting v k) (carried b) = y.elim (setting v k) (carried b) := by
  cases x with
  | none =>
    cases y with
    | none => simp
    | some o' =>
      obtain ⟨v,hv⟩ := exists_setting_ne k (carried b o')
      simp only [Option.map_none,Option.map_some,reduceCtorEq,Option.elim_none,Option.elim_some,false_iff]
      exact fun hall => hv (hall v)
  | some o =>
    cases y with
    | none =>
      obtain ⟨v,hv⟩ := exists_setting_ne k (carried b o)
      simp only [Option.map_none,Option.map_some,reduceCtorEq,Option.elim_none,Option.elim_some,false_iff]
      exact fun hall => hv (hall v).symm
    | some o' =>
      obtain ⟨v,-⟩ := exists_setting_ne k (carried b o)
      simp only [Option.map_some,Option.some.injEq,Option.elim_some]
      exact ⟨fun h _ => h,fun h => h v⟩

end Values

/-- An option is long enough for its value. -/
def Fits (o : Opt) : Prop := (o.tag ∈ addresses → 4 ≤ o.size) ∧ (o.tag = tagDhcpMsgtype → 1 ≤ o.size)

/-- The options of a well-formed vendor area from `cp` on. A pad has no size byte, and there is an end. -/
inductive OptionList (b : ℕ → UInt8) : ℕ → List Opt → Prop
  | ends {cp : ℕ} : cp < bootpVendsize → b cp = tagEnd → OptionList b cp []
  | pad {cp : ℕ} {l : List Opt} : cp < bootpVendsize → b cp = tagPad → OptionList b (cp+1) l → OptionList b cp l
  | opt {cp : ℕ} {l : List Opt} : cp+2+(b (cp+1)).toNat ≤ bootpVendsize → b cp ≠ tagEnd → b cp ≠ tagPad →
      Fits ⟨b cp,cp+2,(b (cp+1)).toNat⟩ → OptionList b (cp+2+(b (cp+1)).toNat) l →
      OptionList b cp (⟨b cp,cp+2,(b (cp+1)).toNat⟩ :: l)

/-- What is asked of `vend_rfc1048` on a vendor area with this expected message type. -/
def RunsRight (b : ℕ → UInt8) (e : UInt8) : Prop :=
  ∀ v, ∃ t, vendTrace b e v = some t ∧ (∀ r ∈ t.read, r < bootpVendsize) ∧ (∀ w ∈ t.written, w < fnameSize) ∧
    (Ended v → Ended t.vars) ∧
    ∀ l, OptionList b 4 l → (∀ o ∈ l, ¬ WrongType b e o) → ∀ k ∈ supported,
      setting t.vars k = (last Opt.tag l k).elim (setting v k) (carried b)

section Settled
variable {b : ℕ → UInt8} {e : UInt8}

theorem met_inside_iff : (∀ o ∈ met b e, Inside b o) ↔
    (∀ r ∈ (met b e).flatMap (optReads b), r < bootpVendsize) ∧ ∀ w ∈ (met b e).flatMap textWrites, w < fnameSize := by
  simp only [List.mem_flatMap,forall_exists_index,and_imp]
  constructor
  · intro h
    exact ⟨fun r o ho hr => ((inside_iff (two_le_val ho)).mp (h o ho)).1 r hr,
      fun w o ho hw => ((inside_iff (two_le_val ho)).mp (h o ho)).2 w hw⟩
  · intro h o ho
    exact (inside_iff (two_le_val ho)).mpr ⟨fun r hr => h.1 r o ho hr,fun w hw => h.2 w o ho hw⟩

/-- The accesses, and the values by what is stored. -/
theorem runsRight_iff_stored : RunsRight b e ↔
    (∀ o ∈ met b e, Inside b o) ∧
    ∀ l, OptionList b 4 l → (∀ o ∈ l, ¬ WrongType b e o) → ∀ k ∈ supported,
      (last Opt.tag (stored b e) k).map (carried b) = (last Opt.tag l k).map (carried b) := by
  have hsizes : (∀ o ∈ met b e, Inside b o) → ∀ o ∈ stored b e, o.tag ∈ texts → o.size < fnameSize :=
    fun h o ho ht => ((h o (stored_subset_met ho)).text ht).1
  constructor
  · intro h
    have hin : ∀ o ∈ met b e, Inside b o := by
      obtain ⟨t,ht,hread,hwritten,-⟩ := h ⟨0,0,0,fun _ => 0,fun _ => 0,0,false⟩
      rw [vendTrace_eq,Option.some.injEq] at ht
      subst ht
      exact met_inside_iff.mpr ⟨hread,hwritten⟩
    refine ⟨hin,fun l hl hright k hk => (map_carried_eq_iff (k := k)).mpr fun v => ?_⟩
    obtain ⟨t,ht,-,-,-,hstores⟩ := h v
    rw [vendTrace_eq,Option.some.injEq] at ht
    subst ht
    rw [← hstores l hl hright k hk,vendRfc1048_vars,setting_foldl (hsizes hin) hk]
  · rintro ⟨hin,hlast⟩ v
    obtain ⟨hread,hwritten⟩ := met_inside_iff.mp hin
    refine ⟨_,vendTrace_eq v,hread,hwritten,fun hv => ?_,fun l hl hright k hk => ?_⟩
    · rw [vendRfc1048_vars]
      exact hv.foldl (hsizes hin)
    · rw [vendRfc1048_vars,setting_foldl (hsizes hin) hk]
      exact map_carried_eq_iff.mp (hlast l hl hright k hk) v

end Settled

section Pads
variable (b : ℕ → UInt8)

/-- Options one after the other up to a place, with pads between them that come in pairs. -/
inductive Paired : ℕ → List Opt → ℕ → Prop
  | here {cp : ℕ} : Paired cp [] cp
  | pads {cp q : ℕ} {l : List Opt} : cp+1 < bootpVendsize → b cp = tagPad → b (cp+1) = tagPad → Paired (cp+2) l q →
      Paired cp l q
  | opt {cp q : ℕ} {l : List Opt} : cp+2+(b (cp+1)).toNat ≤ bootpVendsize → b cp ≠ tagEnd → b cp ≠ tagPad →
      Fits ⟨b cp,cp+2,(b (cp+1)).toNat⟩ → Paired (cp+2+(b (cp+1)).toNat) l q →
      Paired cp (⟨b cp,cp+2,(b (cp+1)).toNat⟩ :: l) q

/-- There is no pad before the end, or they come in pairs. -/
def PadsPaired (cp : ℕ) (l : List Opt) : Prop := ∃ q < bootpVendsize, b q = tagEnd ∧ Paired b cp l q

/-- The first pad without a partner, with the options before and behind it. The byte behind it, the tag of an option or
the end, is taken for the size of the pad. -/
structure LonePad (cp : ℕ) (pre : List Opt) (p : ℕ) (post : List Opt) : Prop where
  before : Paired b cp pre p
  inside : p < bootpVendsize
  pad : b p = tagPad
  alone : b (p+1) ≠ tagPad
  behind : OptionList b (p+1) post

/-- What is stored from behind the bytes that a lone pad is taken to have on, is by chance what the options behind the
pad carry. -/
def StoredByChance (e : UInt8) (pre : List Opt) (p : ℕ) (post : List Opt) : Prop := ∀ k ∈ supported,
  (last Opt.tag (pre ++ storedFrom b e (p+2+(b (p+1)).toNat)) k).map (carried b) =
    (last Opt.tag (pre ++ post) k).map (carried b)

variable {b} {e : UInt8}

theorem Paired.append {cp q : ℕ} {l l' : List Opt} (h : Paired b cp l q) (h' : OptionList b q l') :
    OptionList b cp (l ++ l') := by
  induction h with
  | here => exact h'
  | pads hcp h₁ h₂ _ ih => exact .pad (by omega) h₁ (.pad hcp h₂ (ih h'))
  | opt hcp hend hpad hfits _ ih => exact .opt hcp hend hpad hfits (ih h')

theorem PadsPaired.optionList {cp : ℕ} {l : List Opt} (h : PadsPaired b cp l) : OptionList b cp l := by
  obtain ⟨q,hq,hend,hl⟩ := h
  have happ := hl.append (.ends hq hend)
  rwa [List.append_nil] at happ

theorem LonePad.optionList {cp p : ℕ} {pre post : List Opt} (h : LonePad b cp pre p post) :
    OptionList b cp (pre ++ post) := h.before.append (.pad h.inside h.pad h.behind)

theorem OptionList.unique {cp : ℕ} {l l' : List Opt} (h : OptionList b cp l) (h' : OptionList b cp l') : l = l' := by
  induction h generalizing l' with
  | ends _ hend =>
    cases h' with
    | ends => rfl
    | pad _ hpad => exact absurd (hend.symm.trans hpad) (by decide)
    | opt _ hend' => exact absurd hend hend'
  | pad _ hpad _ ih =>
    cases h' with
    | ends _ hend => exact absurd (hend.symm.trans hpad) (by decide)
    | pad _ _ rest => exact ih rest
    | opt _ _ hpad' => exact absurd hpad hpad'
  | opt _ hend hpad _ _ ih =>
    cases h' with
    | ends _ hend' => exact absurd hend' hend
    | pad _ hpad' => exact absurd hpad' hpad
    | opt _ _ _ _ rest => rw [ih rest]

/-- In a well-formed area the pads come in pairs, or one of them is alone. -/
theorem OptionList.paired_or_lone {cp : ℕ} {l : List Opt} (h : OptionList b cp l) :
    PadsPaired b cp l ∨ ∃ pre p post, l = pre ++ post ∧ LonePad b cp pre p post := by
  -- behind a pad the list goes on two bytes later too, if that pad has a partner
  suffices hboth : (PadsPaired b cp l ∨ ∃ pre p post, l = pre ++ post ∧ LonePad b cp pre p post) ∧
      (b cp = tagPad → PadsPaired b (cp+1) l ∨ ∃ pre p post, l = pre ++ post ∧ LonePad b (cp+1) pre p post) from hboth.1
  induction h with
  | @ends cp hcp hend => exact ⟨.inl ⟨cp,hcp,hend,.here⟩,fun hpad => absurd (hend.symm.trans hpad) (by decide)⟩
  | @pad cp l hcp hpad hrest ih =>
    refine ⟨?_,fun _ => ih.1⟩
    by_cases hpartner : b (cp+1) = tagPad
    · have hin : cp+1 < bootpVendsize := by
        cases hrest with
        | ends h _ => exact h
        | pad h _ _ => exact h
        | opt h _ _ _ _ => omega
      obtain ⟨q,hq,hend,hl⟩ | ⟨pre,p,post,rfl,hlone⟩ := ih.2 hpartner
      · exact .inl ⟨q,hq,hend,.pads hin hpad hpartner hl⟩
      · exact .inr ⟨pre,p,post,rfl,.pads hin hpad hpartner hlone.before,hlone.inside,hlone.pad,hlone.alone,hlone.behind⟩
    · exact .inr ⟨[],cp,l,rfl,.here,hcp,hpad,hpartner,hrest⟩
  | @opt cp l hcp hend hpad hfits _ ih =>
    refine ⟨?_,fun h => absurd h hpad⟩
    obtain ⟨q,hq,hqend,hl⟩ | ⟨pre,p,post,rfl,hlone⟩ := ih.1
    · exact .inl ⟨q,hq,hqend,.opt hcp hend hpad hfits hl⟩
    · exact .inr ⟨_ :: pre,p,post,rfl,.opt hcp hend hpad hfits hlone.before,hlone.inside,hlone.pad,hlone.alone,
        hlone.behind⟩

theorem optionsFrom_fuel {fuel fuel' cp : ℕ} (h : bootpVendsize-cp < fuel) (h' : bootpVendsize-cp < fuel') :
    optionsFrom b fuel cp = optionsFrom b fuel' cp := by
  induction fuel generalizing fuel' cp with
  | zero => omega
  | succ fuel ih =>
    cases fuel' with
    | zero => omega
    | succ fuel' =>
      rw [optionsFrom,optionsFrom]
      by_cases hstop : bootpVendsize ≤ cp ∨ b cp = tagEnd
      · rw [if_pos hstop,if_pos hstop]
      · have hcp : ¬bootpVendsize ≤ cp := fun h => hstop (.inl h)
        rw [if_neg hstop,if_neg hstop,@ih fuel' _ (by omega) (by omega)]

/-- A pad is met as an option without meaning. -/
theorem storedFrom_pad {cp : ℕ} (hcp : 0 < cp) (hin : cp < bootpVendsize) (hpad : b cp = tagPad) :
    (storedFrom b e cp).filter (·.tag ∈ supported) =
      (storedFrom b e (cp+2+(b (cp+1)).toNat)).filter (·.tag ∈ supported) := by
  have hright : ¬WrongType b e ⟨b cp,cp+2,(b (cp+1)).toNat⟩ := fun h => absurd (hpad.symm.trans h.1) (by decide)
  have hsupp : ¬b cp ∈ supported := by rw [hpad]; decide
  have hend : ¬(bootpVendsize ≤ cp ∨ b cp = tagEnd) := not_or.mpr ⟨by omega,by rw [hpad]; decide⟩
  obtain ⟨n,hn⟩ : ∃ n, bootpVendsize = n+1 := ⟨311,rfl⟩
  have hfuel : optionsFrom b n (cp+2+(b (cp+1)).toNat) = optionsFrom b bootpVendsize (cp+2+(b (cp+1)).toNat) :=
    optionsFrom_fuel (by omega) (by omega)
  rw [storedFrom,show optionsFrom b bootpVendsize cp = optionsFrom b (n+1) cp from congrArg (optionsFrom b · cp) hn,
    optionsFrom,if_neg hend,List.takeWhile_cons_of_pos (by simpa using hright),
    List.filter_cons_of_neg (by simpa using hsupp),hfuel]
  rfl

theorem storedFrom_opt {cp : ℕ} (hcp : 0 < cp) (hin : cp < bootpVendsize) (hend : b cp ≠ tagEnd)
    (hright : ¬WrongType b e ⟨b cp,cp+2,(b (cp+1)).toNat⟩) :
    storedFrom b e cp = ⟨b cp,cp+2,(b (cp+1)).toNat⟩ :: storedFrom b e (cp+2+(b (cp+1)).toNat) := by
  have hstop : ¬(bootpVendsize ≤ cp ∨ b cp = tagEnd) := not_or.mpr ⟨by omega,hend⟩
  obtain ⟨n,hn⟩ : ∃ n, bootpVendsize = n+1 := ⟨311,rfl⟩
  have hfuel : optionsFrom b n (cp+2+(b (cp+1)).toNat) = optionsFrom b bootpVendsize (cp+2+(b (cp+1)).toNat) :=
    optionsFrom_fuel (by omega) (by omega)
  rw [storedFrom,show optionsFrom b bootpVendsize cp = optionsFrom b (n+1) cp from congrArg (optionsFrom b · cp) hn,
    optionsFrom,if_neg hstop,List.takeWhile_cons_of_pos (by simpa using hright),hfuel]
  rfl

theorem storedFrom_end {cp : ℕ} (hend : b cp = tagEnd) : storedFrom b e cp = [] := by
  rw [storedFrom,show optionsFrom b bootpVendsize cp = optionsFrom b (311+1) cp from rfl,optionsFrom,
    if_pos (Or.inr hend)]
  rfl

theorem Paired.le {cp q : ℕ} {l : List Opt} (h : Paired b cp l q) : cp ≤ q := by
  induction h with
  | here => exact le_rfl
  | pads _ _ _ _ ih => omega
  | opt _ _ _ _ _ ih => omega

/-- While the pads come in pairs the walk stores the options of the list. -/
theorem Paired.stored_eq {cp q : ℕ} {l : List Opt} (h : Paired b cp l q) (hcp : 0 < cp)
    (hright : ∀ o ∈ l, ¬WrongType b e o) : (storedFrom b e cp).filter (·.tag ∈ supported) =
      (l ++ storedFrom b e q).filter (·.tag ∈ supported) := by
  induction h with
  | here => rfl
  | @pads cp q l hin h₁ h₂ _ ih =>
    have hsize : cp+2+(b (cp+1)).toNat = cp+2 := by rw [h₂]; rfl
    rw [storedFrom_pad hcp (by omega) h₁,hsize]
    exact ih (by omega) hright
  | opt hin hend hpad hfits _ ih =>
    rw [List.forall_mem_cons] at hright
    rw [storedFrom_opt hcp (by omega) hend hright.1,List.cons_append,List.filter_cons,List.filter_cons,
      ih (by omega) hright.2]

theorem last_congr {l l' : List Opt} (h : l.filter (·.tag ∈ supported) = l'.filter (·.tag ∈ supported)) {k : UInt8}
    (hk : k ∈ supported) : last Opt.tag l k = last Opt.tag l' k := by
  have hlast : ∀ l : List Opt, last Opt.tag (l.filter (·.tag ∈ supported)) k = last Opt.tag l k :=
    fun l => last_filter l _ fun o _ ho => by simpa [ho] using hk
  rw [← hlast,h,hlast]

theorem PadsPaired.last_stored {l : List Opt} (h : PadsPaired b 4 l) (hright : ∀ o ∈ l, ¬WrongType b e o) {k : UInt8}
    (hk : k ∈ supported) : last Opt.tag (stored b e) k = last Opt.tag l k := by
  obtain ⟨q,-,hend,hl⟩ := h
  have hstored := hl.stored_eq (by decide) hright
  rw [storedFrom_end hend,List.append_nil] at hstored
  exact last_congr hstored hk

theorem LonePad.last_stored {pre post : List Opt} {p : ℕ} (h : LonePad b 4 pre p post)
    (hright : ∀ o ∈ pre, ¬WrongType b e o) {k : UInt8} (hk : k ∈ supported) :
    last Opt.tag (stored b e) k = last Opt.tag (pre ++ storedFrom b e (p+2+(b (p+1)).toNat)) k := by
  have hp : 0 < p := Nat.lt_of_lt_of_le (by decide) h.before.le
  refine last_congr ?_ hk
  rw [stored,h.before.stored_eq (by decide) hright,List.filter_append,List.filter_append,
    storedFrom_pad hp h.inside h.pad]

/-- `vend_rfc1048` runs right exactly when what it meets lies inside the area and the pads of a well-formed area are
paired, or a lone pad does no harm by chance. -/
theorem vendRfc1048_runsRight_iff (b : ℕ → UInt8) (e : UInt8) : RunsRight b e ↔
    (∀ o ∈ met b e, Inside b o) ∧
    ∀ l, OptionList b 4 l → (∀ o ∈ l, ¬ WrongType b e o) →
      PadsPaired b 4 l ∨ ∃ pre p post, LonePad b 4 pre p post ∧ StoredByChance b e pre p post := by
  rw [runsRight_iff_stored]
  refine and_congr_right fun _ => forall₃_congr fun l hl hright => ?_
  constructor
  · intro hvalues
    obtain hpaired | ⟨pre,p,post,rfl,hlone⟩ := hl.paired_or_lone
    · exact .inl hpaired
    · refine .inr ⟨pre,p,post,hlone,fun k hk => ?_⟩
      rw [← hvalues k hk,hlone.last_stored (fun o ho => hright o (List.mem_append_left _ ho)) hk]
  · rintro (hpaired | ⟨pre,p,post,hlone,hchance⟩) k hk
    · rw [hpaired.last_stored hright hk]
    · obtain rfl := hl.unique hlone.optionList
      rw [hlone.last_stored (fun o ho => hright o (List.mem_append_left _ ho)) hk]
      exact hchance k hk

/-- A pad, a gateway and the end. -/
def paddedArea : ℕ → UInt8 := ofList [99,130,83,99,0,3,4,9,9,9,9,255]

theorem vendRfc1048_fails : ¬ ∀ (b : ℕ → UInt8) (e : UInt8), rfc1048 b = true → RunsRight b e := by
  intro h
  have hopt : OptionList paddedArea 5 [⟨3,7,4⟩] :=
    @OptionList.opt paddedArea 5 _ (by decide) (by decide) (by decide) (by unfold Fits; decide) (.ends (by decide) rfl)
  have hlist : OptionList paddedArea 4 [⟨3,7,4⟩] :=
    .pad (by decide) rfl hopt
  have hlast := (runsRight_iff_stored.mp (h paddedArea dhcpOffer rfl)).2 _ hlist (by decide)
    tagGateway (by decide)
  revert hlast
  decide

end Pads

end Blub.Stand.Rfc1048
