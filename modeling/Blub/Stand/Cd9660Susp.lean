import Blub.Lib.Orbit
import Blub.Stand.Cd9660

/-! When the search of `susp_lookup_record` is safe: what the fields on the disk have to be so that it ends, stays in its
two memories and goes on where each continuation says. -/
namespace Blub.Stand
open Blub.Bytes Blub.Orbit

section Code
variable (v : IsoVolume) (ident : List UInt8)

/-- One turn of the loop as a step, while the loop goes on. -/
def suspStep (x : SuspAt × IsoMem) : Option (SuspAt × IsoMem) :=
  match suspTurn v ident x.1 x.2 with
  | .next s m => some (s,m)
  | _ => none

/-- The turn is one at a field that names a continuation. -/
def Continues (s : SuspAt) (m : IsoMem) : Prop :=
  s.p+3 < s.fin ∧ m.typeAt v s.area s.p ≠ ident ∧ m.typeAt v s.area s.p ≠ suspStop ∧
    m.typeAt v s.area s.p = suspContinuation

/-- Four bytes from a place on. -/
def four (j : ℤ) : List ℤ := [j,j+1,j+2,j+3]

/-- The bytes that a turn examines: the type of a field, and its length or where it is continued. -/
def suspTouches (s : SuspAt) (m : IsoMem) : List ℤ :=
  if s.p+3 < s.fin then
    [s.p,s.p+1] ++
      if m.typeAt v s.area s.p = ident ∨ m.typeAt v s.area s.p = suspStop then []
      else if m.typeAt v s.area s.p = suspContinuation then four (s.p+4) ++ four (s.p+12) ++ four (s.p+20)
      else [s.p+2]
  else []

/-- A place of the directory record, or of the buffer for continuations. -/
def SuspInside (dp len : ℤ) : IsoArea → ℤ → Prop
  | .block, j => dp ≤ j ∧ j < dp+len
  | .cont, j => 0 ≤ j ∧ j < isoBlock

/-- After the turn at a continuation, the block at the location of the field is in the buffer, and the search goes on in
the part of it that the field gives. -/
def GoesOn (s : SuspAt) (m : IsoMem) : Prop :=
  let loc := m.num733 v s.area (s.p+4)
  let off := m.num733 v s.area (s.p+12)
  let len := m.num733 v s.area (s.p+20)
  ∃ m', suspStep v ident (s,m) = some (⟨.cont,off,off+len⟩,m') ∧
    (cdb2devb loc : ℤ) = 4*loc ∧ ∀ j < isoBlock, m'.susp j = v.sector (cdb2devb loc) j

/-- The search ends, examines bytes of the record and of the buffer only, and follows each continuation. -/
structure SuspSafe (dp : ℤ) (lenskip : ℕ) (m : IsoMem) : Prop where
  ends : ∃ fuel out, suspLookupRecord v ident dp lenskip fuel m = some out
  header : 32 < m.recLength v dp
  inside : ∀ n x, orbit (suspStep v ident) (suspStart v dp lenskip m,m) n = some x →
    ∀ j ∈ suspTouches v ident x.1 x.2, SuspInside dp (m.recLength v dp) x.1.area j
  follows : ∀ n x, orbit (suspStep v ident) (suspStart v dp lenskip m,m) n = some x → Continues v ident x.1 x.2 →
    GoesOn v ident x.1 x.2

end Code

/-- A place in the record or in a continuation, and the end of the fields there. -/
structure SuspField where
  block : Option ℤ
  p : ℤ
  fin : ℤ

section Disk
variable (v : IsoVolume) (ident : List UInt8) (m : IsoMem)

/-- The record, and the block of the disk that a continuation is in. -/
def IsoMem.contents : Option ℤ → IsoMem
  | none => m
  | some loc => {m with susp := v.sector (cdb2devb loc)}

def SuspField.at (f : SuspField) : SuspAt := ⟨if f.block = none then .block else .cont,f.p,f.fin⟩

def SuspField.mem (f : SuspField) : IsoMem := m.contents v f.block

/-- The location, the offset and the length that a field holds. -/
def SuspField.location (f : SuspField) : ℤ := (f.mem v m).num733 v f.at.area (f.p+4)
def SuspField.offset (f : SuspField) : ℤ := (f.mem v m).num733 v f.at.area (f.p+12)
def SuspField.length (f : SuspField) : ℤ := (f.mem v m).num733 v f.at.area (f.p+20)

/-- The field after a field, as the disk has it. -/
def fieldStep (f : SuspField) : Option SuspField :=
  let s := f.at
  let c := f.mem v m
  if s.p+3 < s.fin then
    if c.typeAt v s.area s.p = ident then none
    else if c.typeAt v s.area s.p = suspStop then none
    else if c.typeAt v s.area s.p = suspContinuation then
      some ⟨some (f.location v m),f.offset v m,f.offset v m+f.length v m⟩
    else some {f with p := f.p+c.num711 v s.area (s.p+2)}
  else none

/-- What is looked at of a field lies in the record or the block. A continuation is in a sector with a number, and
where it is named in a continuation, the block it is in has the same offset and length at the place of the field. -/
structure FieldSound (dp : ℤ) (f : SuspField) : Prop where
  inside : ∀ j ∈ suspTouches v ident f.at (f.mem v m), SuspInside dp (m.recLength v dp) f.at.area j
  location : Continues v ident f.at (f.mem v m) → 0 ≤ f.location v m ∧ f.location v m < 2^30
  kept : Continues v ident f.at (f.mem v m) → f.block ≠ none →
    (m.contents v (some (f.location v m))).num733 v .cont (f.p+12) = f.offset v m ∧
    (m.contents v (some (f.location v m))).num733 v .cont (f.p+20) = f.length v m

/-- The first field of a record. -/
def firstField (dp : ℤ) (lenskip : ℕ) : SuspField :=
  ⟨none,(suspStart v dp lenskip m).p,(suspStart v dp lenskip m).fin⟩

/-- The fields from the first one on are sound, and none of them is come to again. -/
structure SuspTidy (dp : ℤ) (lenskip : ℕ) : Prop where
  header : 32 < m.recLength v dp
  sound : ∀ n f, orbit (fieldStep v ident m) (firstField v m dp lenskip) n = some f → FieldSound v ident m dp f
  noReturn : NoReturn (fieldStep v ident m) (firstField v m dp lenskip)

end Disk

section Proof
variable {v : IsoVolume} {ident : List UInt8}

theorem suspLoop_iff (x : SuspAt × IsoMem) :
    (∃ fuel out, suspLoop v ident fuel x.1 x.2 = some out) ↔ ∃ n, orbit (suspStep v ident) x n = none := by
  constructor
  · rintro ⟨fuel,out,h⟩
    induction fuel generalizing x with
    | zero => cases h
    | succ fuel ih =>
      rw [suspLoop] at h
      cases ht : suspTurn v ident x.1 x.2 with
      | next s m =>
        rw [ht] at h
        obtain ⟨n,hn⟩ := ih (s,m) h
        exact ⟨n+1,by rw [orbit_step (b := (s,m)) (by rw [suspStep,ht]),hn]⟩
      | found m => exact ⟨1,by rw [orbit_succ orbit_zero,suspStep,ht]⟩
      | null m => exact ⟨1,by rw [orbit_succ orbit_zero,suspStep,ht]⟩
  · rintro ⟨n,h⟩
    induction n generalizing x with
    | zero => cases h
    | succ n ih =>
      cases ht : suspTurn v ident x.1 x.2 with
      | next s m =>
        rw [orbit_step (b := (s,m)) (by rw [suspStep,ht])] at h
        obtain ⟨fuel,out,hrun⟩ := ih (s,m) h
        exact ⟨fuel+1,out,by rw [suspLoop,ht]; exact hrun⟩
      | found m => exact ⟨1,(some x.1,m),by rw [suspLoop,ht]⟩
      | null m => exact ⟨1,(none,m),by rw [suspLoop,ht]⟩

theorem cdb2devb_iff (loc : ℤ) : (cdb2devb loc : ℤ) = 4*loc ↔ 0 ≤ loc ∧ loc < 2^30 := by
  rw [cdb2devb]
  omega

variable {m : IsoMem}

@[simp] theorem SuspField.at_p (f : SuspField) : f.at.p = f.p := rfl
@[simp] theorem SuspField.at_fin (f : SuspField) : f.at.fin = f.fin := rfl

/-- The code is at a field, with the memory that the disk has for it. -/
structure AtField (v : IsoVolume) (m : IsoMem) (x : SuspAt × IsoMem) (f : SuspField) : Prop where
  place : x.1 = f.at
  io : x.2.io = []
  bytes : ∀ j, x.2.byteAt v f.at.area j = (f.mem v m).byteAt v f.at.area j
  buf : x.2.buf = m.buf

section Agree
variable {x : SuspAt × IsoMem} {f : SuspField} (h : AtField v m x f)
include h

theorem AtField.typeAt (j : ℤ) : x.2.typeAt v f.at.area j = (f.mem v m).typeAt v f.at.area j := by
  rw [IsoMem.typeAt,IsoMem.typeAt,h.bytes,h.bytes]

theorem AtField.num711 (j : ℤ) : x.2.num711 v f.at.area j = (f.mem v m).num711 v f.at.area j := by
  rw [IsoMem.num711,IsoMem.num711,h.bytes]

theorem AtField.num733 (j : ℤ) : x.2.num733 v f.at.area j = (f.mem v m).num733 v f.at.area j := by
  rw [IsoMem.num733,IsoMem.num733]
  congr 1
  exact leGet_congr fun i _ _ => h.bytes _

theorem AtField.touches : suspTouches v ident x.1 x.2 = suspTouches v ident f.at (f.mem v m) := by
  rw [h.place,suspTouches,suspTouches,h.typeAt]

theorem AtField.continues : Continues v ident x.1 x.2 ↔ Continues v ident f.at (f.mem v m) := by
  rw [h.place,Continues,Continues,h.typeAt]

/-- What the code does at a continuation. The offset and the length are those that are found after the read. -/
theorem AtField.turn (hc : Continues v ident f.at (f.mem v m)) :
    let m' : IsoMem := ⟨m.buf,blit x.2.susp 0 isoBlock (v.sector (cdb2devb (f.location v m))),[]⟩
    suspStep v ident x = some (⟨.cont,m'.num733 v f.at.area (f.p+12),
      m'.num733 v f.at.area (f.p+12)+m'.num733 v f.at.area (f.p+20)⟩,m') := by
  obtain ⟨hgo,hident,hstop,hce⟩ := hc
  have hloc : x.2.num733 v f.at.area (f.at.p+4) = f.location v m := h.num733 _
  simp only [suspStep,suspTurn]
  rw [h.place,h.typeAt,if_pos hgo,if_neg hident,if_neg hstop,if_pos hce,hloc,h.io,h.buf]
  rfl

omit h in
/-- The numbers found there are those of the field, or those at its place in the block that was read. -/
theorem num733_read (susp : ℕ → UInt8) (loc i : ℤ) :
    IsoMem.num733 v ⟨m.buf,blit susp 0 isoBlock (v.sector (cdb2devb loc)),[]⟩ f.at.area i =
      if f.block = none then (f.mem v m).num733 v f.at.area i else (m.contents v (some loc)).num733 v .cont i := by
  by_cases hb : f.block = none
  · have harea : f.at.area = .block := if_pos hb
    rw [if_pos hb,harea,SuspField.mem,hb]
    rfl
  · have harea : f.at.area = .cont := if_neg hb
    rw [if_neg hb,harea,IsoMem.num733,IsoMem.num733]
    congr 1
    apply leGet_congr
    intro k _ _
    simp only [IsoMem.byteAt,IsoMem.contents]
    split_ifs with hj
    · exact (blit_inside (Nat.zero_le _) (by omega)).trans (by rw [Nat.sub_zero])
    · rfl

/-- A continuation is followed exactly where its sector has a number and its fields are still there after the read. -/
theorem AtField.goesOn_iff (hc : Continues v ident f.at (f.mem v m)) :
    GoesOn v ident x.1 x.2 ↔ (0 ≤ f.location v m ∧ f.location v m < 2^30) ∧ (f.block ≠ none →
      (m.contents v (some (f.location v m))).num733 v .cont (f.p+12) = f.offset v m ∧
      (m.contents v (some (f.location v m))).num733 v .cont (f.p+20) = f.length v m) := by
  have hloc : x.2.num733 v x.1.area (x.1.p+4) = f.location v m := h.place ▸ h.num733 _
  have hoff : x.2.num733 v x.1.area (x.1.p+12) = f.offset v m := h.place ▸ h.num733 _
  have hlen : x.2.num733 v x.1.area (x.1.p+20) = f.length v m := h.place ▸ h.num733 _
  have hturn := h.turn hc
  dsimp only at hturn
  rw [num733_read,num733_read] at hturn
  simp only [GoesOn,hloc,hoff,hlen,hturn,cdb2devb_iff,Option.some.injEq,Prod.mk.injEq,SuspAt.mk.injEq,true_and]
  constructor
  · rintro ⟨m',⟨⟨hp,hfin⟩,-⟩,hsec,-⟩
    refine ⟨hsec,fun hb => ?_⟩
    rw [if_neg hb] at hp hfin
    rw [if_neg hb] at hfin
    exact ⟨hp,by omega⟩
  · rintro ⟨hsec,hkept⟩
    refine ⟨_,⟨?_,rfl⟩,hsec,fun j hj => ?_⟩
    · by_cases hb : f.block = none
      · rw [if_pos hb,if_pos hb]
        exact ⟨rfl,rfl⟩
      · rw [if_neg hb,if_neg hb,(hkept hb).1,(hkept hb).2]
        exact ⟨rfl,rfl⟩
    · exact (blit_inside (Nat.zero_le j) (by omega)).trans (by rw [Nat.sub_zero])

/-- The code goes from field to field as the disk has them. -/
theorem AtField.step (hgo : Continues v ident x.1 x.2 → GoesOn v ident x.1 x.2) :
    Option.Rel (AtField v m) (suspStep v ident x) (fieldStep v ident m f) := by
  by_cases hc : Continues v ident f.at (f.mem v m)
  · obtain ⟨m',hrun,-,hbytes⟩ := hgo (h.continues.mpr hc)
    have hloc : x.2.num733 v x.1.area (x.1.p+4) = f.location v m := h.place ▸ h.num733 _
    have hoff : x.2.num733 v x.1.area (x.1.p+12) = f.offset v m := h.place ▸ h.num733 _
    have hlen : x.2.num733 v x.1.area (x.1.p+20) = f.length v m := h.place ▸ h.num733 _
    have hm' := congrArg (Option.map Prod.snd) ((h.turn hc).symm.trans hrun)
    simp only [Option.map_some,Option.some.injEq] at hm'
    obtain ⟨hgo',hident,hstop,hce⟩ := hc
    rw [show (x.1,x.2) = x from rfl] at hrun
    rw [hrun,fieldStep,if_pos hgo',if_neg hident,if_neg hstop,if_pos hce]
    refine .some ⟨?_,?_,?_,?_⟩
    · simp only [hoff,hlen,SuspField.at,if_neg (Option.some_ne_none _)]
    · rw [← hm']
    · intro j
      simp only [SuspField.at,SuspField.mem,if_neg (Option.some_ne_none _),IsoMem.contents,IsoMem.byteAt]
      split_ifs with hj
      · rw [hbytes _ (by omega),hloc]
      · rfl
    · rw [← hm']
  · rw [Continues] at hc
    simp only [suspStep,suspTurn,fieldStep]
    rw [h.place,h.typeAt,h.num711]
    by_cases hp : f.at.p+3 < f.at.fin
    · rw [if_pos hp,if_pos hp]
      by_cases hident : (f.mem v m).typeAt v f.at.area f.at.p = ident
      · rw [if_pos hident,if_pos hident]
        exact .none
      rw [if_neg hident,if_neg hident]
      by_cases hstop : (f.mem v m).typeAt v f.at.area f.at.p = suspStop
      · rw [if_pos hstop,if_pos hstop]
        exact .none
      have hce : (f.mem v m).typeAt v f.at.area f.at.p ≠ suspContinuation := fun hce => hc ⟨hp,hident,hstop,hce⟩
      rw [if_neg hstop,if_neg hstop,if_neg hce,if_neg hce]
      exact .some ⟨rfl,h.io,h.bytes,h.buf⟩
    · rw [if_neg hp,if_neg hp]
      exact .none

end Agree

theorem num733_mem (m : IsoMem) (a : IsoArea) (j : ℤ) : m.num733 v a j ∈ v.num733 '' {n | n < 256^4} :=
  ⟨_,leGet_lt _ 0 4,rfl⟩

/-- There are finitely many places for a field: those behind the start of the record and behind each continuation that
can be named. -/
theorem fields_finite (f₀ : SuspField) (hblock : f₀.block = none) :
    ∃ S : Set SuspField, S.Finite ∧ ∀ n f, orbit (fieldStep v ident m) f₀ n = some f → f ∈ S := by
  have hN : (v.num733 '' {n | n < 256^4}).Finite := (Set.finite_lt_nat _).image _
  have hmem : ∀ (m : IsoMem) (a : IsoArea) (j : ℤ), m.num733 v a j ∈ v.num733 '' {n | n < 256^4} := num733_mem
  generalize v.num733 '' {n | n < 256^4} = N at hN hmem
  have hA : (insert none (some '' N)).Finite := (hN.image _).insert _
  have hB : (insert f₀.fin (Set.image2 (·+·) N N)).Finite := (hN.image2 _ hN).insert _
  have hP : (insert f₀.p N ∪ (·+255) '' insert f₀.fin (Set.image2 (·+·) N N)).Finite := (hN.insert _).union (hB.image _)
  obtain ⟨lo,hlo⟩ := hP.bddBelow
  obtain ⟨hi,hhi⟩ := hP.bddAbove
  let g : SuspField → Option ℤ × ℤ × ℤ := fun f => (f.block,f.fin,f.p)
  have hg : Function.Injective g := by
    rintro ⟨b,p,e⟩ ⟨b',p',e'⟩ heq
    simp only [g,Prod.mk.injEq] at heq
    obtain ⟨rfl,rfl,rfl⟩ := heq
    rfl
  refine ⟨Set.preimage g (insert none (some '' N) ×ˢ insert f₀.fin (Set.image2 (·+·) N N) ×ˢ Set.Icc lo hi),
    (hA.prod (hB.prod (Set.finite_Icc lo hi))).preimage hg.injOn,fun n => ?_⟩
  have hplace : ∀ p ∈ insert f₀.p N, lo ≤ p ∧ p ≤ hi := fun p hp => ⟨hlo (.inl hp),hhi (.inl hp)⟩
  induction n with
  | zero =>
    intro f hf
    cases hf
    exact ⟨.inl hblock,.inl rfl,hplace _ (.inl rfl)⟩
  | succ n ih =>
    intro f hf
    cases hprev : orbit (fieldStep v ident m) f₀ n with
    | none => rw [orbit,hprev] at hf; cases hf
    | some f' =>
      obtain ⟨hblock',hfin',hlo',hhi'⟩ := ih f' hprev
      rw [orbit_succ hprev,fieldStep] at hf
      split_ifs at hf with hp hident hstop hce
      · cases hf
        exact ⟨.inr ⟨_,hmem _ _ _,rfl⟩,.inr ⟨_,hmem _ _ _,_,hmem _ _ _,rfl⟩,hplace _ (.inr (hmem _ _ _))⟩
      · cases hf
        refine ⟨hblock',hfin',?_,?_⟩
        · exact le_add_of_le_of_nonneg hlo' (Int.natCast_nonneg _)
        · have hend : f'.fin+255 ≤ hi := hhi (.inr ⟨_,hfin',rfl⟩)
          have hbyte : (f'.mem v m).num711 v f'.at.area (f'.at.p+2) < 256 := UInt8.toNat_lt _
          simp only [g,SuspField.at_p,SuspField.at_fin] at hp hbyte ⊢
          omega

/-- The search is safe exactly where the fields on the disk are tidy. -/
theorem susp_lookup_safe_iff (v : IsoVolume) (ident : List UInt8) (dp : ℤ) (lenskip : ℕ) (m : IsoMem) (hio : m.io = []) :
    SuspSafe v ident dp lenskip m ↔ SuspTidy v ident m dp lenskip := by
  obtain ⟨S,hS,hin⟩ := @fields_finite v ident m (firstField v m dp lenskip) rfl
  have hfirst : AtField v m (suspStart v dp lenskip m,m) (firstField v m dp lenskip) := ⟨rfl,hio,fun _ => rfl,rfl⟩
  constructor
  · intro h
    have hrel := orbit_rel hfirst fun n x f hx _ hxf => @AtField.step v ident m x f hxf (h.follows n x hx)
    have hends : ∃ n, orbit (fieldStep v ident m) (firstField v m dp lenskip) n = none := by
      obtain ⟨n,hn⟩ := (suspLoop_iff (suspStart v dp lenskip m,m)).mp h.ends
      have hn' := hrel n
      rw [hn] at hn'
      cases hf : orbit (fieldStep v ident m) (firstField v m dp lenskip) n with
      | none => exact ⟨n,hf⟩
      | some f => rw [hf] at hn'; cases hn'
    refine ⟨h.header,fun n f hf => ?_,(orbit_ends_iff hS hin).mp hends⟩
    have hn := hrel n
    rw [hf] at hn
    cases hx : orbit (suspStep v ident) (suspStart v dp lenskip m,m) n with
    | none => rw [hx] at hn; cases hn
    | some x =>
      rw [hx] at hn
      cases hn with
      | some hxf =>
        refine ⟨fun j hj => ?_,fun hc => ?_,fun hc => ?_⟩
        · rw [← hxf.touches] at hj
          have := h.inside n x hx j hj
          rwa [hxf.place] at this
        · exact ((hxf.goesOn_iff hc).mp (h.follows n x hx (hxf.continues.mpr hc))).1
        · exact ((hxf.goesOn_iff hc).mp (h.follows n x hx (hxf.continues.mpr hc))).2
  · intro h
    have hgo : ∀ n x f, orbit (fieldStep v ident m) (firstField v m dp lenskip) n = some f → AtField v m x f →
        Continues v ident x.1 x.2 → GoesOn v ident x.1 x.2 := by
      intro n x f hf hxf hc
      have hc' := hxf.continues.mp hc
      exact (hxf.goesOn_iff hc').mpr ⟨(h.sound n f hf).location hc',(h.sound n f hf).kept hc'⟩
    have hrel := orbit_rel hfirst fun n x f _ hf hxf => hxf.step (hgo n x f hf hxf)
    have hpair : ∀ n x, orbit (suspStep v ident) (suspStart v dp lenskip m,m) n = some x →
        ∃ f, orbit (fieldStep v ident m) (firstField v m dp lenskip) n = some f ∧ AtField v m x f := by
      intro n x hx
      have hn := hrel n
      rw [hx] at hn
      cases hf : orbit (fieldStep v ident m) (firstField v m dp lenskip) n with
      | none => rw [hf] at hn; cases hn
      | some f =>
        rw [hf] at hn
        cases hn with
        | some hxf => exact ⟨f,rfl,hxf⟩
    refine ⟨?_,h.header,fun n x hx j hj => ?_,fun n x hx hc => ?_⟩
    · obtain ⟨n,hn⟩ := (orbit_ends_iff hS hin).mpr h.noReturn
      refine (suspLoop_iff (suspStart v dp lenskip m,m)).mpr ⟨n,?_⟩
      by_contra hne
      obtain ⟨x,hx⟩ := Option.ne_none_iff_exists'.mp hne
      obtain ⟨f,hf,-⟩ := hpair n x hx
      rw [hn] at hf
      cases hf
    · obtain ⟨f,hf,hxf⟩ := hpair n x hx
      rw [hxf.touches] at hj
      rw [hxf.place]
      exact (h.sound n f hf).inside j hj
    · obtain ⟨f,hf,hxf⟩ := hpair n x hx
      exact hgo n x f hf hxf hc

end Proof

/-- A volume of zeros, and a buffer with one record. -/
def blankVolume : IsoVolume := ⟨fun _ _ => 0,fun n => n,fun _ _ => 0⟩

def recordMem (l : List UInt8) : IsoMem := ⟨ofList l,fun _ => 0,[]⟩

/-- A record with the name A, and with a field before that of its other name. -/
def namedRecord : List UInt8 := 45 :: List.replicate 31 0 ++ [1,65,82,82,5,1,137,78,77,6,1,0,97]

/-- The name is found in the second field. -/
theorem susp_lookup_safe_named : SuspSafe blankVolume rripName 0 0 (recordMem namedRecord) := by
  have hlen : (recordMem namedRecord).recLength blankVolume 0 = 45 := by decide
  have hstart : suspStart blankVolume 0 0 (recordMem namedRecord) = ⟨.block,34,45⟩ := by decide
  have hfirst : firstField blankVolume (recordMem namedRecord) 0 0 = ⟨none,34,45⟩ := by rw [firstField,hstart]
  have hnext : fieldStep blankVolume rripName (recordMem namedRecord) ⟨none,34,45⟩ = some ⟨none,39,45⟩ := by
    have htype : (recordMem namedRecord).typeAt blankVolume .block 34 = [82,82] := by decide
    have hsize : (recordMem namedRecord).num711 blankVolume .block 36 = 5 := by decide
    simp [fieldStep,SuspField.at,SuspField.mem,IsoMem.contents,htype,hsize,rripName,suspStop,suspContinuation]
  have hname : (recordMem namedRecord).typeAt blankVolume .block 39 = rripName := by decide
  have hend : fieldStep blankVolume rripName (recordMem namedRecord) ⟨none,39,45⟩ = none := by
    simp [fieldStep,SuspField.at,SuspField.mem,IsoMem.contents,hname]
  have hbefore : suspTouches blankVolume rripName ⟨.block,34,45⟩ (recordMem namedRecord) = [34,35,36] := by decide
  have hat : suspTouches blankVolume rripName ⟨.block,39,45⟩ (recordMem namedRecord) = [39,40] := by decide
  refine (susp_lookup_safe_iff blankVolume rripName 0 0 (recordMem namedRecord) rfl).mpr ⟨by rw [hlen]; decide,?_,?_⟩
  · rw [hfirst]
    intro n f hf
    obtain ⟨-,rfl⟩ | ⟨-,rfl⟩ := orbit_two hnext hend hf
    · refine ⟨fun j hj => ?_,fun hc => absurd hc.2.2.2 (by decide),fun hc => absurd hc.2.2.2 (by decide)⟩
      change j ∈ suspTouches blankVolume rripName ⟨.block,34,45⟩ (recordMem namedRecord) at hj
      rw [hbefore] at hj
      rw [hlen]
      change 0 ≤ j ∧ j < 0+45
      simp only [List.mem_cons,List.not_mem_nil,or_false] at hj
      omega
    · refine ⟨fun j hj => ?_,fun hc => absurd hname hc.2.1,fun hc => absurd hname hc.2.1⟩
      change j ∈ suspTouches blankVolume rripName ⟨.block,39,45⟩ (recordMem namedRecord) at hj
      rw [hat] at hj
      rw [hlen]
      change 0 ≤ j ∧ j < 0+45
      simp only [List.mem_cons,List.not_mem_nil,or_false] at hj
      omega
  · rw [hfirst]
    refine noReturn_two hnext hend fun heq => ?_
    cases heq

/-- A record with a field of length 0. -/
def stuckRecord : List UInt8 := 38 :: List.replicate 31 0 ++ [1,65,88,88,0,1]

/-- At a field of length 0 the search stays for ever. -/
theorem susp_lookup_stuck : ¬SuspSafe blankVolume rripName 0 0 (recordMem stuckRecord) := by
  intro h
  obtain ⟨fuel,out,hrun⟩ := h.ends
  have hstart : suspStart blankVolume 0 0 (recordMem stuckRecord) = ⟨.block,34,38⟩ := by decide
  have hturn : suspTurn blankVolume rripName ⟨.block,34,38⟩ (recordMem stuckRecord) =
      .next ⟨.block,34,38⟩ (recordMem stuckRecord) := by
    have htype : (recordMem stuckRecord).typeAt blankVolume .block 34 = [88,88] := by decide
    have hlen : (recordMem stuckRecord).num711 blankVolume .block (34+2) = 0 := by decide
    simp only [suspTurn,htype,hlen]
    rfl
  rw [suspLookupRecord,hstart] at hrun
  induction fuel with
  | zero => cases hrun
  | succ fuel ih =>
    rw [suspLoop,hturn] at hrun
    exact ih hrun

end Blub.Stand
