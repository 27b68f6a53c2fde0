import Blub.Lib.Fields
import Blub.Lib.Fuel
import Blub.Stand.ZBuf

/-! `check_header` of `gzipfs.c` and of `bzipfs.c`, over a file of any length. -/
namespace Blub.Stand
open Blub.Fields

/-- The loop over a magic number, for a `get_byte`. -/
def magicLoop {σ : Type*} (get : σ → Option (ℤ × σ)) : List ℤ → σ → Option (Bool × σ)
  | [], s => some (true,s)
  | m::ms, s => (get s).bind fun r => if r.1 ≠ m then some (false,r.2) else magicLoop get ms r.2

attribute [local grind =] magicLoop

section Magic
variable {σ : Type*}

/-- What a `get_byte` does: with the bytes to come it gives the next one, and at the end it leaves a bad state. -/
structure Gets (val : UInt8 → ℤ) (At : σ → List UInt8 → Prop) (Bad : σ → Prop) (get : σ → Option (ℤ × σ)) : Prop where
  cons {s : σ} {b : UInt8} {l : List UInt8} (hs : At s (b::l)) : ∃ s', get s = some (val b,s') ∧ At s' l
  nil {s : σ} {r : ℤ × σ} (hs : At s []) (h : get s = some r) : Bad r.2
  bad {s : σ} {r : ℤ × σ} (hs : Bad s) (h : get s = some r) : Bad r.2

variable {val : UInt8 → ℤ} {At : σ → List UInt8 → Prop} {Bad : σ → Prop} {get : σ → Option (ℤ × σ)}

theorem Gets.magic_bad (hget : Gets val At Bad get) {ms : List ℤ} {s : σ} {r : Bool × σ} (hs : Bad s)
    (h : magicLoop get ms s = some r) : Bad r.2 := by
  induction ms generalizing s with
  | nil =>
    cases h
    exact hs
  | cons m ms ih =>
    obtain ⟨r',hr,h⟩ := Option.bind_eq_some_iff.mp h
    have hw := hget.bad hs hr
    split at h
    · cases h
      exact hw
    · exact ih hw h

/-- The file starts with the magic number, or ends in it, or differs from it. -/
theorem Gets.magic (hget : Gets val At Bad get) (hval : Function.Injective val) (ms : List UInt8) {l : List UInt8} {s : σ}
    (hs : At s l) :
    (∃ l' s', l = ms++l' ∧ magicLoop get (ms.map val) s = some (true,s') ∧ At s' l') ∨
      ((∃ t, t ≠ [] ∧ ms = l++t) ∧ ∀ r, magicLoop get (ms.map val) s = some r → Bad r.2) ∨
        (¬ms <+: l ∧ ¬l <+: ms) ∧ ∃ l' s', magicLoop get (ms.map val) s = some (false,s') ∧ At s' l' := by
  induction ms generalizing l s with
  | nil => exact .inl ⟨l,s,rfl,rfl,hs⟩
  | cons m ms ih =>
    cases l with
    | nil =>
      refine .inr (.inl ⟨⟨m::ms,List.cons_ne_nil _ _,rfl⟩,?_⟩)
      intro r h
      obtain ⟨r',hr,h⟩ := Option.bind_eq_some_iff.mp h
      have hw := hget.nil hs hr
      split at h
      · cases h
        exact hw
      · exact hget.magic_bad hw h
    | cons b l =>
      obtain ⟨s',hb,hs'⟩ := hget.cons hs
      by_cases hm : b = m
      · subst hm
        have heq : magicLoop get ((b::ms).map val) s = magicLoop get (ms.map val) s' := by
          rw [List.map_cons,magicLoop,hb]
          simp
        rw [heq]
        rcases ih hs' with ⟨l',s₁,rfl,h₁⟩ | ⟨⟨t,ht,rfl⟩,h₁⟩ | ⟨⟨hn,hn'⟩,h₁⟩
        · exact .inl ⟨l',s₁,rfl,h₁⟩
        · exact .inr (.inl ⟨⟨t,ht,rfl⟩,h₁⟩)
        · exact .inr (.inr ⟨by simpa [List.cons_prefix_cons] using ⟨hn,hn'⟩,h₁⟩)
      · refine .inr (.inr ⟨?_,l,s',?_,hs'⟩)
        · simp [List.cons_prefix_cons,hm,Ne.symm hm]
        · rw [List.map_cons,magicLoop,hb,Option.bind_some,if_pos (hval.ne hm)]

end Magic

namespace Gzip

/-- The variables of `check_header`: `c`, `zf_dataoffset` and the buffer. -/
structure Header where
  c : ℤ
  dataoffset : ℕ
  z : ZBuf

section Code
variable (raw : RawFile)

def getByte (s : Header) : Option (ℤ × Header) :=
  (nextByte raw s.z).map fun r =>
    match r.1 with
    | none => (-1,{s with z := r.2})
    | some b => (b.toNat,{s with dataoffset := s.dataoffset+1, z := r.2})

/-- A loop of `n` turns that reads a byte in each, and may stop. -/
def byteLoop (body : ℤ → Header → Bool × Header) : ℕ → Header → Option Header
  | 0, s => some s
  | n+1, s => (getByte raw s).bind fun r => if (body r.1 r.2).1 then some (body r.1 r.2).2 else byteLoop body n (body r.1 r.2).2

/-- `for (len = 0; len < n; len++) (void)get_byte(..)`. -/
def discard : ℕ → Header → Option Header := byteLoop raw fun _ s => (false,s)

/-- `while (len-- != 0 && get_byte(..) != -1)`. -/
def skipLen : ℕ → Header → Option Header := byteLoop raw fun c s => (c = -1,s)

/-- `for (len = 0; len < n; len++) c = get_byte(..)`. -/
def skipCrc : ℕ → Header → Option Header := byteLoop raw fun c s => (false,{s with c})

def skipExtra (s : Header) : Option Header :=
  (getByte raw s).bind fun lo => (getByte raw lo.2).bind fun hi =>
    skipLen raw ((lo.1+hi.1*2^8)%2^32).toNat hi.2

/-- `while ((c = get_byte(..)) != 0 && c != -1)`. -/
def skipString : ℕ → Header → Option Header
  | 0, _ => none
  | fuel+1, s => (getByte raw s).bind fun r =>
      let s := {r.2 with c := r.1}
      if s.c ≠ 0 ∧ s.c ≠ -1 then skipString fuel s else some s

/-- `(flags & mask) != 0`, in the low eight bits of the `int`. -/
abbrev Has (flags : ℤ) (mask : ℕ) : Prop := (flags%256).toNat &&& mask ≠ 0

/-- What comes after the method and the flags. -/
def skipFields (fuel : ℕ) (flags : ℤ) (s : Header) : Option Header :=
  (discard raw 6 s).bind fun s => (if Has flags 0x04 then skipExtra raw s else some s).bind fun s =>
    (if Has flags 0x08 then skipString raw fuel s else some s).bind fun s =>
      (if Has flags 0x10 then skipString raw fuel s else some s).bind fun s =>
        if Has flags 0x02 then skipCrc raw 2 s else some s

/-- The check of the method and the flags, and what comes after them. -/
def checkFields (fuel : ℕ) (method flags : ℤ) (s : Header) : Option (ℤ × Header) :=
  if method ≠ 8 ∨ Has flags 0xe0 then some (1,s)
  else (skipFields raw fuel flags s).map fun s => (if s.c = -1 then 1 else 0,s)

/-- What comes after the magic number. -/
def checkRest (fuel : ℕ) (s : Header) : Option (ℤ × Header) :=
  (getByte raw s).bind fun method => (getByte raw method.2).bind fun flags =>
    checkFields raw fuel method.1 flags.1 flags.2

def checkHeader (fuel : ℕ) (z : ZBuf) : Option (ℤ × Header) :=
  (magicLoop (getByte raw) [0x1f,0x8b] ⟨0,0,z⟩).bind fun m =>
    if m.1 then checkRest raw fuel {m.2 with c := 0x8b} else some (1,m.2)

attribute [local grind =] byteLoop skipString

end Code

/-- The extra field: its length in two bytes, and as many bytes. -/
def extra (s : List UInt8) : Prop := ∃ a b x, s = a::b::x ∧ x.length = a.toNat+b.toNat*256

/-- Everything after the flags. -/
def fields (flags : ℤ) : List UInt8 → Prop :=
  both (fixed 6) (both (opt extra (Has flags 0x04)) (both (opt (marked 0) (Has flags 0x08))
    (both (opt (marked 0) (Has flags 0x10)) (opt (fixed 2) (Has flags 0x02)))))

/-- A complete header: magic, deflate, no reserved flags, and all optional fields that the flags announce. -/
def IsHeader (s : List UInt8) : Prop :=
  ∃ (flags : UInt8) (x : List UInt8), ¬Has flags.toNat 0xe0 ∧ fields flags.toNat x ∧ s = 0x1f::0x8b::8::flags::x

theorem code_extra : Code extra where
  total s := by
    match s with
    | [] => exact .inr ⟨[0,0],by simp,0,0,[],rfl,rfl⟩
    | [a] => exact .inr ⟨0::List.replicate a.toNat 0,by simp,a,0,_,rfl,by simp⟩
    | a::b::x =>
      by_cases h : a.toNat+b.toNat*256 ≤ x.length
      · refine .inl ⟨a::b::x.take (a.toNat+b.toNat*256),⟨a,b,_,rfl,by simpa using h⟩,?_⟩
        simpa using List.take_prefix _ x
      · refine .inr ⟨List.replicate (a.toNat+b.toNat*256-x.length) 0,by simp; omega,a,b,_,rfl,?_⟩
        have hlen := @List.length_append _ x (List.replicate (a.toNat+b.toNat*256-x.length) 0)
        rw [List.length_replicate] at hlen
        exact hlen.trans (by omega)
  free := by
    rintro _ _ s t ⟨a,b,x,rfl,hx⟩ ⟨a',b',y,rfl,hy⟩ h
    simp only [List.cons_append,List.cons.injEq] at h
    obtain ⟨rfl,rfl,h⟩ := h
    rw [(List.append_inj h (hx.trans hy.symm)).1]

theorem crc_nonempty (flags : ℤ) : ∃ s : List UInt8, opt (fixed 2) (Has flags 0x02) s :=
  opt_nonempty (F := fixed 2) ⟨[0,0],rfl⟩ _

theorem string_nonempty (flags : ℤ) (mask : ℕ) : ∃ s : List UInt8, opt (marked 0) (Has flags mask) s :=
  opt_nonempty ⟨[0],[],by simp,rfl⟩ _

theorem comment_nonempty (flags : ℤ) :
    ∃ s : List UInt8, both (opt (marked 0) (Has flags 0x10)) (opt (fixed 2) (Has flags 0x02)) s :=
  both_nonempty (string_nonempty flags 0x10) (crc_nonempty flags)

theorem extra_nonempty (flags : ℤ) : ∃ s, opt extra (Has flags 0x04) s := opt_nonempty ⟨[0,0],0,0,[],rfl,rfl⟩ _

theorem fields_nonempty (flags : ℤ) : ∃ s, fields flags s :=
  both_nonempty ⟨List.replicate 6 0,rfl⟩ (both_nonempty (extra_nonempty flags)
    (both_nonempty (string_nonempty flags 0x08) (comment_nonempty flags)))

theorem code_fields (flags : ℤ) : Code (fields flags) := by
  have h₄ := ((code_marked (0 : UInt8)).opt (Has flags 0x10)).both ((code_fixed 2).opt (Has flags 0x02)) (crc_nonempty flags)
  have h₃ := ((code_marked (0 : UInt8)).opt (Has flags 0x08)).both h₄ (comment_nonempty flags)
  have hname := both_nonempty (string_nonempty flags 0x08) (comment_nonempty flags)
  have h₂ := (code_extra.opt (Has flags 0x04)).both h₃ hname
  exact (code_fixed 6).both h₂ (both_nonempty (extra_nonempty flags) hname)

/-- The file ends inside a header, or before its flags. -/
def Short (s : List UInt8) : Prop := Cut IsHeader s ∨ ∃ m, s = [0x1f,0x8b,m]

/-- The magic number and the shortest rest of a header. -/
theorem short_magic : Cut IsHeader [0x1f,0x8b] := by
  obtain ⟨y,hy⟩ := fields_nonempty (0 : UInt8).toNat
  exact ⟨8::0::y,List.cons_ne_nil _ _,0,y,by decide,hy,rfl⟩

theorem IsHeader.magic {h : List UInt8} (hh : IsHeader h) : [0x1f,0x8b] <+: h := by
  obtain ⟨flags,x,_,_,rfl⟩ := hh
  exact ⟨8::flags::x,rfl⟩

theorem IsHeader.unique {h h' l l' : List UInt8} (hh : IsHeader h) (hh' : IsHeader h') (heq : h++l = h'++l') : h = h' := by
  obtain ⟨flags,x,_,hx,rfl⟩ := hh
  obtain ⟨flags',y,_,hy,rfl⟩ := hh'
  simp only [List.cons_append,List.cons.injEq,true_and] at heq
  obtain ⟨rfl,heq⟩ := heq
  rw [(code_fields flags.toNat).free hx hy heq]

/-- A file with a complete header is not short. -/
theorem not_short {h l : List UInt8} (hh : IsHeader h) : ¬Short (h++l) := by
  obtain ⟨flags,x,_,hx,rfl⟩ := hh
  rintro (⟨t,ht,flags',y,_,hy,heq⟩ | ⟨m,heq⟩)
  · simp only [List.cons_append,List.cons.injEq,true_and] at heq
    obtain ⟨rfl,heq⟩ := heq
    rw [List.append_assoc] at heq
    have hxy := (code_fields flags.toNat).free hx hy (heq.trans (List.append_nil y).symm)
    rw [hxy,List.append_right_eq_self,List.append_eq_nil_iff] at heq
    exact ht heq.2
  · simp at heq

section Spec
variable {raw : RawFile} (hread : ∀ n, raw.fails n = false)
include hread

/-- The bytes still to come, those consumed being counted. -/
structure Header.At (raw : RawFile) (s : Header) (l : List UInt8) : Prop where
  rest : s.z.Rest raw l
  place : ∃ pre, raw.content = pre++l ∧ s.dataoffset = pre.length
  kept : s.c ≠ -1

def Header.Wrapped (s : Header) : Prop := s.z.wrapped = true

theorem getByte_cons {s : Header} {b : UInt8} {l : List UInt8} (h : s.At raw (b::l)) :
    ∃ s', getByte raw s = some ((b.toNat : ℤ),s') ∧ s'.At raw l ∧ s'.c = s.c := by
  obtain ⟨z',hz,hrest⟩ := ZBuf.nextByte_cons h.rest hread
  obtain ⟨pre,hpre,hoff⟩ := h.place
  exact ⟨{s with dataoffset := s.dataoffset+1, z := z'},by rw [getByte,hz]; rfl,
    ⟨hrest,⟨pre++[b],by simp [hpre],by simp [hoff]⟩,h.kept⟩,rfl⟩

theorem getByte_nil {s : Header} {r : ℤ × Header} (h : s.At raw []) (hr : getByte raw s = some r) : r.2.Wrapped := by
  obtain ⟨b,hb,rfl⟩ := Option.map_eq_some_iff.mp hr
  have hw := ZBuf.nextByte_nil h.rest hread hb
  split <;> exact hw

omit hread in
theorem getByte_wrapped {s : Header} {r : ℤ × Header} (h : s.Wrapped) (hr : getByte raw s = some r) : r.2.Wrapped := by
  obtain ⟨b,hb,rfl⟩ := Option.map_eq_some_iff.mp hr
  have hw := ZBuf.nextByte_wrapped h hb
  split <;> exact hw

section Loop
variable {body : ℤ → Header → Bool × Header} (hz : ∀ c s, (body c s).2.z = s.z)
include hz

omit hread in
theorem byteLoop_wrapped {n : ℕ} {s s' : Header} (hs : s.Wrapped) (h : byteLoop raw body n s = some s') : s'.Wrapped := by
  induction n generalizing s with
  | zero =>
    cases h
    exact hs
  | succ n ih =>
    obtain ⟨r,hget,h⟩ := Option.bind_eq_some_iff.mp h
    have hw : (body r.1 r.2).2.Wrapped := by
      rw [Header.Wrapped,hz]
      exact getByte_wrapped hs hget
    by_cases hstop : (body r.1 r.2).1 = true
    · rw [if_pos hstop] at h
      cases h
      exact hw
    · rw [if_neg hstop] at h
      exact ih hw h

/-- Such a loop, if it stops for no byte, reads a field of a fixed length. -/
theorem reads_byteLoop (hgo : ∀ (b : UInt8) s, (body b.toNat s).1 = false)
    (hat : ∀ (b : UInt8) s l, s.At raw l → (body b.toNat s).2.At raw l) (n : ℕ) :
    Reads (Header.At raw) Header.Wrapped (fixed n) (byteLoop raw body n) where
  code := code_fixed n
  whole := by
    induction n with
    | zero =>
      intro s x l hs hx
      rw [List.length_eq_zero_iff.mp hx] at hs
      exact ⟨s,rfl,hs⟩
    | succ n ih =>
      rintro s (_ | ⟨b,x⟩) l hs hx
      · cases hx
      · obtain ⟨s',hget,hs',_⟩ := getByte_cons hread hs
        rw [byteLoop,hget,Option.bind_some,hgo b s',if_neg Bool.false_ne_true]
        exact ih (hat b s' _ hs') (Nat.succ.inj hx)
  cut := by
    induction n with
    | zero => exact fun hs hl => absurd (fixed_cut.mp hl) (Nat.not_lt_zero _)
    | succ n ih =>
      rintro s s' (_ | ⟨b,l⟩) hs hl h
      · obtain ⟨r,hget,_⟩ := Option.bind_eq_some_iff.mp h
        have hw : s'.Wrapped := by
          have hr := getByte_nil hread hs hget
          rw [byteLoop,hget,Option.bind_some] at h
          by_cases hstop : (body r.1 r.2).1 = true
          · rw [if_pos hstop] at h
            cases h
            rwa [Header.Wrapped,hz]
          · rw [if_neg hstop] at h
            apply byteLoop_wrapped hz _ h
            rwa [Header.Wrapped,hz]
        exact hw
      · obtain ⟨s₁,hget,hs₁,_⟩ := getByte_cons hread hs
        rw [byteLoop,hget,Option.bind_some,hgo b s₁,if_neg Bool.false_ne_true] at h
        exact ih (hat b s₁ _ hs₁) (fixed_cut.mpr (Nat.lt_of_succ_lt_succ (fixed_cut.mp hl))) h
  bad := byteLoop_wrapped hz

end Loop

theorem reads_discard (n : ℕ) : Reads (Header.At raw) Header.Wrapped (fixed n) (discard raw n) :=
  reads_byteLoop hread (fun _ _ => rfl) (fun _ _ => rfl) (fun _ _ _ h => h) n

theorem reads_skipLen (n : ℕ) : Reads (Header.At raw) Header.Wrapped (fixed n) (skipLen raw n) :=
  reads_byteLoop hread (fun _ _ => rfl) (fun b _ => decide_eq_false (show (b.toNat : ℤ) ≠ -1 by omega)) (fun _ _ _ h => h) n

theorem reads_skipCrc (n : ℕ) : Reads (Header.At raw) Header.Wrapped (fixed n) (skipCrc raw n) :=
  reads_byteLoop hread (fun _ _ => rfl) (fun _ _ => rfl) (fun b _ _ h => ⟨h.rest,h.place,show (b.toNat : ℤ) ≠ -1 by omega⟩) n

theorem reads_extra : Reads (Header.At raw) Header.Wrapped extra (skipExtra raw) := by
  have hlen (a b : UInt8) : (((a.toNat : ℤ)+(b.toNat : ℤ)*2^8)%2^32).toNat = a.toNat+b.toNat*256 := by
    have ha := a.toNat_lt
    have hb := b.toNat_lt
    omega
  refine ⟨code_extra,?_,?_,?_⟩
  · rintro s _ l hs ⟨a,b,x,rfl,hx⟩
    obtain ⟨s₁,hlo,hs₁,_⟩ := getByte_cons hread hs
    obtain ⟨s₂,hhi,hs₂,_⟩ := getByte_cons hread hs₁
    simp only [skipExtra,hlo,hhi,Option.bind_some,hlen]
    exact (reads_skipLen hread _).whole hs₂ hx
  · intro s s' l hs hl h
    obtain ⟨lo,hlo,h⟩ := Option.bind_eq_some_iff.mp h
    obtain ⟨hi,hhi,h⟩ := Option.bind_eq_some_iff.mp h
    match l with
    | [] => exact byteLoop_wrapped (fun _ _ => rfl) (getByte_wrapped (getByte_nil hread hs hlo) hhi) h
    | [a] =>
      obtain ⟨s₁,hlo',hs₁,_⟩ := getByte_cons hread hs
      cases hlo.symm.trans hlo'
      exact byteLoop_wrapped (fun _ _ => rfl) (getByte_nil hread hs₁ hhi) h
    | a::b::l =>
      obtain ⟨s₁,hlo',hs₁,_⟩ := getByte_cons hread hs
      cases hlo.symm.trans hlo'
      obtain ⟨s₂,hhi',hs₂,_⟩ := getByte_cons hread hs₁
      cases hhi.symm.trans hhi'
      rw [hlen] at h
      obtain ⟨t,ht,_,_,x,heq,hx⟩ := hl
      simp only [List.cons_append,List.cons.injEq] at heq
      obtain ⟨rfl,rfl,rfl⟩ := heq
      exact (reads_skipLen hread _).cut hs₂ ⟨t,ht,hx⟩ h
  · intro s s' hs h
    obtain ⟨lo,hlo,h⟩ := Option.bind_eq_some_iff.mp h
    obtain ⟨hi,hhi,h⟩ := Option.bind_eq_some_iff.mp h
    exact byteLoop_wrapped (fun _ _ => rfl) (getByte_wrapped (getByte_wrapped hs hlo) hhi) h

omit hread in
theorem skipString_wrapped {fuel : ℕ} {s s' : Header} (hs : s.Wrapped) (h : skipString raw fuel s = some s') :
    s'.Wrapped := by
  induction fuel generalizing s with
  | zero => cases h
  | succ fuel ih =>
    obtain ⟨r,hget,h⟩ := Option.bind_eq_some_iff.mp h
    have hw := getByte_wrapped hs hget
    dsimp only at h
    split at h
    · exact ih (s := {r.2 with c := r.1}) hw h
    · cases h
      exact hw

omit hread in
theorem byte_nonzero {b : UInt8} (h : ¬0 = b) : (b.toNat : ℤ) ≠ 0 ∧ (b.toNat : ℤ) ≠ -1 := by
  refine ⟨fun h₀ => h ?_,by omega⟩
  exact UInt8.toNat_inj.mp (Int.ofNat.inj h₀.symm)

theorem reads_string {fuel : ℕ} (hfuel : raw.content.length < fuel) :
    Reads (Header.At raw) Header.Wrapped (marked 0) (skipString raw fuel) where
  code := code_marked 0
  whole := by
    rintro s _ l hs ⟨x,hx,rfl⟩
    have hlen : x.length < fuel := by
      obtain ⟨pre,hpre,_⟩ := hs.place
      simp only [hpre,List.length_append] at hfuel
      omega
    clear hfuel
    induction x generalizing s fuel with
    | nil =>
      obtain ⟨s',hget,hs',_⟩ := getByte_cons hread hs
      cases fuel with
      | zero => cases hlen
      | succ fuel =>
        refine ⟨{s' with c := 0},by simp [skipString,hget],hs'.rest,hs'.place,by simp⟩
    | cons b x ih =>
      obtain ⟨s',hget,hs',_⟩ := getByte_cons hread hs
      rw [List.mem_cons,not_or] at hx
      cases fuel with
      | zero => cases hlen
      | succ fuel =>
        rw [skipString,hget]
        simp only [Option.bind_some]
        rw [if_pos (byte_nonzero hx.1)]
        exact ih hx.2 ⟨hs'.rest,hs'.place,show (b.toNat : ℤ) ≠ -1 by omega⟩ (Nat.lt_of_succ_lt_succ hlen)
  cut := by
    intro s s' l hs hl h
    rw [marked_cut] at hl
    clear hfuel
    induction l generalizing s fuel with
    | nil =>
      cases fuel with
      | zero => cases h
      | succ fuel =>
        obtain ⟨r,hget,h⟩ := Option.bind_eq_some_iff.mp h
        have hw := getByte_nil hread hs hget
        dsimp only at h
        split at h
        · exact skipString_wrapped (s := {r.2 with c := r.1}) hw h
        · cases h
          exact hw
    | cons b l ih =>
      obtain ⟨s₁,hget,hs₁,_⟩ := getByte_cons hread hs
      rw [List.mem_cons,not_or] at hl
      cases fuel with
      | zero => cases h
      | succ fuel =>
        rw [skipString,hget] at h
        simp only [Option.bind_some] at h
        rw [if_pos (byte_nonzero hl.1)] at h
        exact ih (s := {s₁ with c := b.toNat}) ⟨hs₁.rest,hs₁.place,show (b.toNat : ℤ) ≠ -1 by omega⟩ hl.2 h
  bad := skipString_wrapped

/-- The reads after the flags are the reads of the fields that the flags announce. -/
theorem reads_fields {fuel : ℕ} (hfuel : raw.content.length < fuel) (flags : ℤ) :
    Reads (Header.At raw) Header.Wrapped (fields flags) (skipFields raw fuel flags) := by
  have hs := reads_string hread hfuel
  have h₄ := (hs.opt (Has flags 0x10)).both ((reads_skipCrc hread 2).opt (Has flags 0x02)) (crc_nonempty flags)
  have h₃ := (hs.opt (Has flags 0x08)).both h₄ (comment_nonempty flags)
  have hname := both_nonempty (string_nonempty flags 0x08) (comment_nonempty flags)
  have h₂ := ((reads_extra hread).opt (Has flags 0x04)).both h₃ hname
  exact (reads_discard hread 6).both h₂ (both_nonempty (extra_nonempty flags) hname)

section Fuel
omit hread

theorem skipString_mono {fuel : ℕ} {s s' : Header} (h : skipString raw fuel s = some s') :
    skipString raw (fuel+1) s = some s' := by
  induction fuel generalizing s with
  | zero => cases h
  | succ fuel ih =>
    rw [skipString] at h ⊢
    obtain ⟨r,hr,h⟩ := Option.bind_eq_some_iff.mp h
    rw [hr,Option.bind_some]
    dsimp only at h ⊢
    split at h
    · rename_i hgo
      rw [if_pos hgo]
      exact ih h
    · rename_i hgo
      rwa [if_neg hgo]

theorem optString_mono {fuel : ℕ} {b : Prop} [Decidable b] {s s' : Header}
    (h : (if b then skipString raw fuel s else some s) = some s') :
    (if b then skipString raw (fuel+1) s else some s) = some s' := by
  split at h
  · rename_i hb
    rw [if_pos hb]
    exact skipString_mono h
  · rename_i hb
    rwa [if_neg hb]

theorem skipFields_mono {fuel : ℕ} {flags : ℤ} {s s' : Header} (h : skipFields raw fuel flags s = some s') :
    skipFields raw (fuel+1) flags s = some s' := by
  obtain ⟨s₁,h₁,h⟩ := Option.bind_eq_some_iff.mp h
  obtain ⟨s₂,h₂,h⟩ := Option.bind_eq_some_iff.mp h
  obtain ⟨s₃,h₃,h⟩ := Option.bind_eq_some_iff.mp h
  obtain ⟨s₄,h₄,h⟩ := Option.bind_eq_some_iff.mp h
  simp only [skipFields,h₁,h₂,optString_mono h₃,optString_mono h₄,Option.bind_some]
  exact h

theorem checkHeader_mono {fuel : ℕ} {z : ZBuf} {r : ℤ × Header} (h : checkHeader raw fuel z = some r) :
    checkHeader raw (fuel+1) z = some r := by
  obtain ⟨m,hm,h⟩ := Option.bind_eq_some_iff.mp h
  simp only [checkHeader,hm,Option.bind_some]
  split at h
  · rename_i hmagic
    rw [if_pos hmagic]
    obtain ⟨method,h₁,h⟩ := Option.bind_eq_some_iff.mp h
    obtain ⟨flags,h₂,h⟩ := Option.bind_eq_some_iff.mp h
    simp only [checkRest,h₁,h₂,Option.bind_some]
    unfold checkFields at h ⊢
    split at h
    · rename_i hno
      rwa [if_pos hno]
    · rename_i hno
      obtain ⟨s,hs,rfl⟩ := Option.map_eq_some_iff.mp h
      rw [if_neg hno,skipFields_mono hs]
      rfl
  · rename_i hmagic
    rwa [if_neg hmagic]

end Fuel

theorem gets_header : Gets (fun b => b.toNat) (Header.At raw) Header.Wrapped (getByte raw) where
  cons hs := by
    obtain ⟨s',hget,hs',_⟩ := getByte_cons hread hs
    exact ⟨s',hget,hs'⟩
  nil := getByte_nil hread
  bad := getByte_wrapped

theorem checkFields_wrapped {fuel : ℕ} (hfuel : raw.content.length < fuel) {method flags : ℤ} {s : Header} {r : ℤ × Header}
    (hs : s.Wrapped) (h : checkFields raw fuel method flags s = some r) : r.2.Wrapped := by
  unfold checkFields at h
  split at h
  · cases h
    exact hs
  · obtain ⟨s',hs',rfl⟩ := Option.map_eq_some_iff.mp h
    exact (reads_fields hread hfuel _).bad hs hs'

theorem checkRest_wrapped {fuel : ℕ} (hfuel : raw.content.length < fuel) {s : Header} {r : ℤ × Header} (hs : s.Wrapped)
    (h : checkRest raw fuel s = some r) : r.2.Wrapped := by
  obtain ⟨method,hmethod,h⟩ := Option.bind_eq_some_iff.mp h
  obtain ⟨flags,hflags,h⟩ := Option.bind_eq_some_iff.mp h
  exact checkFields_wrapped hread hfuel (getByte_wrapped (getByte_wrapped hs hmethod) hflags) h

/-- Too few bytes for the method and the flags. -/
theorem checkRest_short {fuel : ℕ} (hfuel : raw.content.length < fuel) {s : Header} {l : List UInt8} (hs : s.At raw l)
    (hl : l.length < 2) {r : ℤ × Header} (h : checkRest raw fuel s = some r) : r.2.Wrapped := by
  obtain ⟨method,hmethod,h⟩ := Option.bind_eq_some_iff.mp h
  obtain ⟨flags,hflags,h⟩ := Option.bind_eq_some_iff.mp h
  apply checkFields_wrapped hread hfuel _ h
  match l with
  | [] => exact getByte_wrapped (getByte_nil hread hs hmethod) hflags
  | [m] =>
    obtain ⟨s₁,hm,hs₁,_⟩ := getByte_cons hread hs
    cases hmethod.symm.trans hm
    exact getByte_nil hread hs₁ hflags
  | m::f::x =>
    simp only [List.length_cons] at hl
    omega

/-- The rest of a header, or a method or flags that are refused, or a field that is cut. -/
theorem checkRest_cases {fuel : ℕ} (hfuel : raw.content.length < fuel) {s : Header} {m flags : UInt8} {x : List UInt8}
    (hs : s.At raw (m::flags::x)) :
    ((m ≠ 8 ∨ Has flags.toNat 0xe0) ∧ ∃ s', checkRest raw fuel s = some (1,s') ∧ s'.At raw x) ∨
      (m = 8 ∧ ¬Has flags.toNat 0xe0) ∧
        ((∃ y l s', fields flags.toNat y ∧ x = y++l ∧ checkRest raw fuel s = some (0,s') ∧ s'.At raw l) ∨
          Cut (fields flags.toNat) x ∧ ∀ r, checkRest raw fuel s = some r → r.2.Wrapped) := by
  obtain ⟨s₁,hm,hs₁,_⟩ := getByte_cons hread hs
  obtain ⟨s₂,hf,hs₂,_⟩ := getByte_cons hread hs₁
  have hrest : checkRest raw fuel s = checkFields raw fuel m.toNat flags.toNat s₂ := by
    simp [checkRest,hm,hf]
  have hmethod : ((m.toNat : ℤ) ≠ 8 ↔ m ≠ 8) := by
    rw [ne_eq,ne_eq,not_iff_not]
    exact ⟨fun h => UInt8.toNat_inj.mp (Int.ofNat.inj h),fun h => by rw [h]; rfl⟩
  have hfields := reads_fields hread hfuel flags.toNat
  rw [hrest]
  by_cases hno : m ≠ 8 ∨ Has flags.toNat 0xe0
  · exact .inl ⟨hno,s₂,if_pos (by rwa [hmethod]),hs₂⟩
  · have heq : checkFields raw fuel m.toNat flags.toNat s₂ =
        (skipFields raw fuel flags.toNat s₂).map fun s => (if s.c = -1 then 1 else 0,s) :=
      if_neg (by rwa [hmethod])
    rw [not_or,not_not] at hno
    rw [heq]
    refine .inr ⟨hno,?_⟩
    rcases hfields.code.total x with ⟨y,hy,l,rfl⟩ | hcut
    · obtain ⟨s',hskip,hs'⟩ := hfields.whole hs₂ hy
      refine .inl ⟨y,l,s',hy,rfl,?_,hs'⟩
      rw [hskip,Option.map_some,if_neg hs'.kept]
    · refine .inr ⟨hcut,fun r h => ?_⟩
      obtain ⟨s',hskip,rfl⟩ := Option.map_eq_some_iff.mp h
      exact hfields.cut hs₂ hcut hskip

theorem checkHeader_cases {fuel : ℕ} (hfuel : raw.content.length < fuel) :
    (∃ h l s, IsHeader h ∧ raw.content = h++l ∧ checkHeader raw fuel .fresh = some (0,s) ∧ s.At raw l) ∨
      (Short raw.content ∧ ∀ r, checkHeader raw fuel .fresh = some r → r.2.Wrapped) ∨
        (¬Starts IsHeader raw.content ∧ ¬Short raw.content) ∧ ∃ l s, checkHeader raw fuel .fresh = some (1,s) ∧ s.At raw l := by
  have hstart : Header.At raw ⟨0,0,.fresh⟩ raw.content := ⟨ZBuf.fresh_rest,⟨[],rfl,rfl⟩,by simp⟩
  have hmagic : ([0x1f,0x8b] : List UInt8).map (fun b => (b.toNat : ℤ)) = [0x1f,0x8b] := by decide
  have hinj : Function.Injective fun b : UInt8 => (b.toNat : ℤ) :=
    fun a b h => UInt8.toNat_inj.mp (Int.ofNat.inj h)
  rcases (gets_header hread).magic hinj [0x1f,0x8b] hstart with ⟨l,s,hl,hm,hs⟩ | ⟨⟨t,ht,hl⟩,hm⟩ | ⟨⟨hn,hn'⟩,l,s,hm,hs⟩
  · rw [hmagic] at hm
    have hs' : Header.At raw {s with c := 0x8b} l := ⟨hs.rest,hs.place,by simp⟩
    have hcheck : checkHeader raw fuel .fresh = checkRest raw fuel {s with c := 0x8b} := by
      rw [checkHeader,hm]
      rfl
    simp only [hcheck,hl]
    match l with
    | [] => exact .inr (.inl ⟨.inl short_magic,fun r h => checkRest_short hread hfuel hs' (by simp) h⟩)
    | [m] => exact .inr (.inl ⟨.inr ⟨m,rfl⟩,fun r h => checkRest_short hread hfuel hs' (by simp) h⟩)
    | m::flags::x =>
      rcases checkRest_cases hread hfuel hs' with ⟨hno,s',hr,hx⟩ | ⟨⟨rfl,hflags⟩,⟨y,l,s',hy,rfl,hr,hl'⟩ | ⟨⟨t,ht,hcut⟩,hr⟩⟩
      · have hdiffer {y : List UInt8} (hy : IsHeader ([0x1f,0x8b]++m::flags::y)) : False := by
          obtain ⟨f,_,hf,_,heq⟩ := hy
          simp only [List.cons_append,List.nil_append,List.cons.injEq,true_and] at heq
          obtain ⟨rfl,rfl,_⟩ := heq
          exact hno.elim (fun h => h rfl) hf
        refine .inr (.inr ⟨⟨?_,?_⟩,x,s',hr,hx⟩)
        · rintro ⟨h,hh,t,hpre⟩
          have hfirst := hh
          obtain ⟨f,y,_,_,rfl⟩ := hh
          simp only [List.cons_append,List.nil_append,List.cons.injEq,true_and] at hpre
          obtain ⟨rfl,rfl,_⟩ := hpre
          exact hdiffer hfirst
        · rintro (⟨t,_,hh⟩ | ⟨_,heq⟩)
          · rw [List.append_assoc] at hh
            exact hdiffer hh
          · simp at heq
      · exact .inl ⟨0x1f::0x8b::8::flags::y,l,s',⟨flags,y,hflags,hy,rfl⟩,rfl,hr,hl'⟩
      · exact .inr (.inl ⟨.inl ⟨t,ht,flags,x++t,hflags,hcut,rfl⟩,hr⟩)
  · refine .inr (.inl ⟨.inl ?_,fun r h => ?_⟩)
    · obtain ⟨t',_,h⟩ := short_magic
      exact ⟨t++t',by simp [ht],by rwa [← List.append_assoc,← hl]⟩
    · obtain ⟨m,hm',h⟩ := Option.bind_eq_some_iff.mp h
      rw [hmagic] at hm
      have hw := hm m hm'
      split at h
      · exact checkRest_wrapped hread hfuel (s := {m.2 with c := 0x8b}) hw h
      · cases h
        exact hw
  · rw [hmagic] at hm
    refine .inr (.inr ⟨⟨?_,?_⟩,l,s,?_,hs⟩)
    · rintro ⟨h,hh,hpre⟩
      exact hn (hh.magic.trans hpre)
    · rintro (⟨t,_,hh⟩ | ⟨m,heq⟩)
      · exact (List.prefix_or_prefix_of_prefix hh.magic (List.prefix_append _ t)).elim hn hn'
      · exact hn ⟨[m],heq.symm⟩
    · rw [checkHeader,hm]
      rfl

end Spec
end Gzip

namespace Bzip
variable (raw : RawFile)

/-- A `char`, which is signed. -/
def toChar (b : UInt8) : ℤ := if b.toNat < 128 then b.toNat else (b.toNat : ℤ)-256

def getByte (z : ZBuf) : Option (ℤ × ZBuf) :=
  (nextByte raw z).map fun r =>
    match r.1 with
    | none => (-1,r.2)
    | some b => (toChar b,r.2)

/-- The bytes are put back in the buffer where the check succeeds. -/
def checkHeader (z : ZBuf) : Option (ℤ × ZBuf) :=
  (magicLoop (getByte raw) [66,90,104] z).bind fun m =>
    if m.1 then
      (getByte raw m.2).map fun c =>
        if c.1 < 49 ∨ 57 < c.1 then (1,c.2)
        else (0,{c.2 with nextIn := c.2.nextIn-4, availIn := (c.2.availIn+4)%2^32})
    else some (1,m.2)

variable {raw} (hread : ∀ n, raw.fails n = false)

/-- The bytes still to come; those consumed are in the buffer, as long as it has not been refilled. -/
structure At (raw : RawFile) (z : ZBuf) (l : List UInt8) : Prop where
  rest : z.Rest raw l
  place : ∃ pre, raw.content = pre++l ∧ (pre = [] → z.availIn = 0) ∧
    (pre ≠ [] → pre.length < zBufsize →
      z.nextIn = pre.length ∧ z.buf.take pre.length = pre ∧ z.input = l.take (zBufsize-pre.length))

theorem toChar_injective : Function.Injective toChar := by
  intro a b h
  apply UInt8.toNat_inj.mp
  have ha := a.toNat_lt
  have hb := b.toNat_lt
  simp only [toChar] at h
  split_ifs at h <;> omega

include hread in
theorem getByte_cons {z : ZBuf} {b : UInt8} {l : List UInt8} (h : At raw z (b::l)) :
    ∃ z', getByte raw z = some (toChar b,z') ∧ At raw z' l := by
  obtain ⟨z₀,z',hload,hnext,hrest,hbuf,hin,hget,hinput⟩ := ZBuf.nextByte_taken h.rest hread
  obtain ⟨pre,hpre,hfirst,hlater⟩ := h.place
  refine ⟨z',by rw [getByte,hnext]; rfl,hrest,pre++[b],by simp [hpre],by simp,fun _ hlt => ?_⟩
  rw [List.length_append,List.length_singleton] at hlt ⊢
  by_cases hp : pre = []
  · subst hp
    have hempty := hfirst rfl
    rw [if_pos hempty] at hload
    obtain ⟨_,_,hfill⟩ := h.rest.fill hempty
    have h₀ : z₀.nextIn = 0 := hload ▸ ZBuf.zFill_nextIn hempty
    rw [h₀] at hin hget
    refine ⟨hin,?_,?_⟩
    · rw [hbuf]
      cases hz : z₀.buf with
      | nil => simp [hz] at hget
      | cons c m => simpa [hz] using hget
    · rw [← hload,hfill (hread _),show zBufsize = (zBufsize-1)+1 from rfl,List.take_succ_cons,List.cons.injEq] at hinput
      exact hinput.2.symm
  · obtain ⟨hn,hbytes,hleft⟩ := hlater hp (by omega)
    have hsome : z.availIn ≠ 0 := by
      rw [← h.rest.length_input,hleft,List.length_take,List.length_cons]
      omega
    rw [if_neg hsome] at hload
    dsimp only at hload
    subst hload
    refine ⟨by omega,?_,?_⟩
    · rw [hbuf,List.take_add_one,hbytes,← hn,hget]
      rfl
    · have hroom : zBufsize-pre.length = zBufsize-(pre.length+1)+1 := by omega
      rw [hleft,hroom,List.take_succ_cons,List.cons.injEq] at hinput
      exact hinput.2.symm

include hread in
theorem getByte_nil {z : ZBuf} {r : ℤ × ZBuf} (h : At raw z []) (hr : getByte raw z = some r) : r.2.wrapped = true := by
  obtain ⟨b,hb,rfl⟩ := Option.map_eq_some_iff.mp hr
  have hw := ZBuf.nextByte_nil h.rest hread hb
  split <;> exact hw

theorem getByte_wrapped {z : ZBuf} {r : ℤ × ZBuf} (h : z.wrapped = true) (hr : getByte raw z = some r) :
    r.2.wrapped = true := by
  obtain ⟨b,hb,rfl⟩ := Option.map_eq_some_iff.mp hr
  have hw := ZBuf.nextByte_wrapped h hb
  split <;> exact hw

/-- The bytes of the header are put back. -/
theorem putBack {z : ZBuf} {h l : List UInt8} (hl : raw.content = h++l) (hh : h.length = 4) (hz : At raw z l) :
    ZBuf.Rest raw {z with nextIn := z.nextIn-4, availIn := (z.availIn+4)%2^32} raw.content := by
  have hbound : zBufsize = 2048 := rfl
  obtain ⟨pre,hpre,_,hlater⟩ := hz.place
  have hp : pre = h := List.append_cancel_right (hpre.symm.trans hl)
  subst hp
  obtain ⟨hn,hbytes,_⟩ := hlater (by simp [← List.length_pos_iff,hh]) (by omega)
  have hinside := hz.rest.inside
  rw [hh] at hn hbytes
  have havail : (z.availIn+4)%2^32 = 4+z.availIn := by omega
  refine ⟨hz.rest.size,?_,?_,hz.rest.sound⟩
  · dsimp only
    omega
  · have hunread := hz.rest.unread
    simp only [ZBuf.input,havail] at hunread ⊢
    rw [hn,Nat.sub_self,List.drop_zero,List.take_add,hbytes,List.append_assoc,← hn,hunread,hl]

/-- The header: the magic number and the block size. -/
def IsHeader (s : List UInt8) : Prop := ∃ c : UInt8, (49 ≤ c.toNat ∧ c.toNat ≤ 57) ∧ s = [66,90,104,c]

include hread in
/-- The four bytes are there and in range, and are put back; or the file ends before them; or they differ. -/
theorem checkHeader_cases :
    (Starts IsHeader raw.content ∧ ∃ z, checkHeader raw .fresh = some (0,z) ∧ z.Rest raw raw.content) ∨
      (raw.content <+: [66,90,104] ∧ ∀ r, checkHeader raw .fresh = some r → r.2.wrapped = true) ∨
        (¬Starts IsHeader raw.content ∧ ¬raw.content <+: [66,90,104]) ∧ ∃ l z, checkHeader raw .fresh = some (1,z) ∧ At raw z l := by
  have hstart : At raw .fresh raw.content := ⟨ZBuf.fresh_rest,[],rfl,fun _ => rfl,fun h => absurd rfl h⟩
  have hgets : Gets toChar (At raw) (fun z => z.wrapped = true) (getByte raw) :=
    ⟨getByte_cons hread,getByte_nil hread,getByte_wrapped⟩
  have hmagic : ([66,90,104] : List UInt8).map toChar = [66,90,104] := by decide
  have hheader {s : List UInt8} (h : Starts IsHeader s) : [66,90,104] <+: s := by
    obtain ⟨_,⟨c,_,rfl⟩,l,rfl⟩ := h
    exact ⟨c::l,rfl⟩
  rcases hgets.magic toChar_injective [66,90,104] hstart with ⟨l,z,hl,hm,hz⟩ | ⟨⟨t,ht,hl⟩,hm⟩ | ⟨⟨hn,hn'⟩,l,z,hm,hz⟩
  · rw [hmagic] at hm
    have hcheck : checkHeader raw .fresh = (getByte raw z).map fun c =>
        if c.1 < 49 ∨ 57 < c.1 then (1,c.2)
        else (0,{c.2 with nextIn := c.2.nextIn-4, availIn := (c.2.availIn+4)%2^32}) := by
      rw [checkHeader,hm]
      rfl
    cases l with
    | nil =>
      refine .inr (.inl ⟨by simp [hl],fun r h => ?_⟩)
      rw [hcheck] at h
      obtain ⟨c,hc,rfl⟩ := Option.map_eq_some_iff.mp h
      have hw := getByte_nil hread hz hc
      split <;> exact hw
    | cons c l =>
      obtain ⟨z',hget,hz'⟩ := getByte_cons hread hz
      rw [hcheck,hget,Option.map_some]
      have hdigit : ¬(toChar c < 49 ∨ 57 < toChar c) ↔ 49 ≤ c.toNat ∧ c.toNat ≤ 57 := by
        have hc := c.toNat_lt
        unfold toChar
        split_ifs <;> omega
      by_cases hc : 49 ≤ c.toNat ∧ c.toNat ≤ 57
      · refine .inl ⟨⟨_,⟨c,hc,rfl⟩,l,hl.symm⟩,_,by rw [if_neg (hdigit.mpr hc)],?_⟩
        exact putBack (h := [66,90,104,c]) hl rfl hz'
      · refine .inr (.inr ⟨⟨?_,?_⟩,l,z',by rw [if_pos (not_not.mp (mt hdigit.mp hc))],hz'⟩)
        · rintro ⟨_,⟨d,hd,rfl⟩,m,hpre⟩
          rw [hl] at hpre
          simp only [List.cons_append,List.nil_append,List.cons.injEq,true_and] at hpre
          rw [hpre.1] at hd
          exact hc hd
        · intro hpre
          have hlen := hpre.length_le
          simp only [hl,List.length_append,List.length_cons,List.length_nil] at hlen
          omega
  · refine .inr (.inl ⟨⟨t,hl.symm⟩,fun r h => ?_⟩)
    obtain ⟨m,hm',h⟩ := Option.bind_eq_some_iff.mp h
    rw [hmagic] at hm
    have hw := hm m hm'
    split at h
    · obtain ⟨c,hc,rfl⟩ := Option.map_eq_some_iff.mp h
      have hw' := getByte_wrapped hw hc
      split <;> exact hw'
    · cases h
      exact hw
  · rw [hmagic] at hm
    refine .inr (.inr ⟨⟨fun h => hn (hheader h),hn'⟩,l,z,?_,hz⟩)
    rw [checkHeader,hm]
    rfl

end Bzip

/-- The check of a gzip file ends, has consumed bytes of the file only, never lets `avail_in` go below zero, and accepts the
complete headers, with their lengths in `zf_dataoffset`. -/
def Gzip.HeaderRight (data : List UInt8) : Prop :=
  ∃ fuel rc s, checkHeader ⟨data,fun _ => false⟩ fuel .fresh = some (rc,s) ∧ s.z.wrapped = false ∧
    (s.dataoffset ≤ data.length ∧ s.z.input ++ data.drop s.z.pos = data.drop s.dataoffset) ∧
      (rc = 0 ↔ Starts IsHeader data) ∧ (rc = 0 → ∃ h, IsHeader h ∧ h <+: data ∧ s.dataoffset = h.length)

/-- The check of a bzip2 file ends, has consumed bytes of the file only, and never lets `avail_in` go below zero. -/
def Bzip.HeaderRight (data : List UInt8) : Prop :=
  ∃ rc z, checkHeader ⟨data,fun _ => false⟩ .fresh = some (rc,z) ∧ z.wrapped = false ∧
    ∃ n ≤ data.length, z.input ++ data.drop z.pos = data.drop n

theorem Gzip.Header.At.consumed {raw : RawFile} {s : Header} {l : List UInt8} (h : s.At raw l) :
    s.z.wrapped = false ∧ s.dataoffset ≤ raw.content.length ∧
      s.z.input ++ raw.content.drop s.z.pos = raw.content.drop s.dataoffset := by
  obtain ⟨pre,hpre,hoff⟩ := h.place
  refine ⟨h.rest.sound,by simp [hpre,hoff],h.rest.unread.trans ?_⟩
  rw [hpre,hoff,List.drop_left]

theorem Gzip.headerRight_iff (data : List UInt8) : HeaderRight data ↔ ¬Short data := by
  obtain ⟨raw,hraw⟩ : ∃ raw : RawFile, raw = ⟨data,fun _ => false⟩ := ⟨_,rfl⟩
  have hread : ∀ n, raw.fails n = false := by simp [hraw]
  have hdata : raw.content = data := by rw [hraw]
  rw [HeaderRight,← hraw,← hdata]
  constructor
  · rintro ⟨fuel,rc,s,hs,hsound,_⟩ hshort
    have hmore := Fuel.le (f := fun n => checkHeader raw n .fresh) (fun _ _ h => checkHeader_mono h) hs
      (Nat.le_add_right fuel (raw.content.length+1))
    have hfuel : raw.content.length < fuel+(raw.content.length+1) := by omega
    rcases checkHeader_cases hread hfuel with ⟨h,l,_,hh,heq,_⟩ | ⟨_,hall⟩ | ⟨⟨_,hlong⟩,_⟩
    · exact not_short hh (heq ▸ hshort)
    · exact Bool.false_ne_true (hsound.symm.trans (hall _ hmore))
    · exact hlong hshort
  · intro hlong
    rcases checkHeader_cases hread (Nat.lt_succ_self _) with ⟨h,l,s,hh,heq,hs,hl⟩ | ⟨hshort,_⟩ | ⟨hno,l,s,hs,hl⟩
    · obtain ⟨hsound,hconsumed⟩ := hl.consumed
      have hstart : Starts IsHeader raw.content := ⟨h,hh,l,heq.symm⟩
      obtain ⟨pre,hpre,hoff⟩ := hl.place
      refine ⟨_,0,s,hs,hsound,hconsumed,⟨fun _ => hstart,fun _ => rfl⟩,fun _ => ⟨h,hh,⟨l,heq.symm⟩,?_⟩⟩
      rw [hoff,List.append_cancel_right (hpre.symm.trans heq)]
    · exact absurd hshort hlong
    · obtain ⟨hsound,hconsumed⟩ := hl.consumed
      exact ⟨_,1,s,hs,hsound,hconsumed,⟨fun h => absurd h (by decide),fun h => absurd h hno.1⟩,fun h => absurd h (by decide)⟩

/-- A complete header is accepted. -/
theorem Gzip.checkHeader_header {raw : RawFile} (hread : ∀ n, raw.fails n = false) {header data : List UInt8}
    (hdata : raw.content = header++data) (hh : IsHeader header) {fuel : ℕ} (hfuel : raw.content.length < fuel) :
    ∃ s, checkHeader raw fuel .fresh = some (0,s) ∧ s.z.Rest raw data ∧ s.dataoffset = header.length := by
  rcases checkHeader_cases hread hfuel with ⟨h,l,s,hh',heq,hs,hl⟩ | ⟨hshort,_⟩ | ⟨⟨hno,_⟩,_⟩
  · have hsame := hh'.unique hh (heq.symm.trans hdata)
    rw [hdata,hsame] at heq
    obtain ⟨pre,hpre,hoff⟩ := hl.place
    rw [List.append_cancel_left heq]
    refine ⟨s,hs,hl.rest,?_⟩
    rw [hdata,heq] at hpre
    rw [hoff,← List.append_cancel_right hpre]
  · exact absurd hshort (hdata ▸ not_short hh)
  · exact absurd ⟨header,hh,data,hdata.symm⟩ hno

/-- A file with a complete header is left in front of its data. -/
theorem Gzip.checkHeader_accepts {header data : List UInt8} (hh : IsHeader header) {fuel : ℕ} {s : Header}
    (hs : checkHeader ⟨header++data,fun _ => false⟩ fuel .fresh = some (0,s)) :
    s.z.Rest ⟨header++data,fun _ => false⟩ data ∧ s.dataoffset = header.length := by
  have hread : ∀ n, (⟨header++data,fun _ => false⟩ : RawFile).fails n = false := fun _ => rfl
  obtain ⟨s',hs',hrest⟩ := checkHeader_header hread rfl hh (Nat.lt_succ_self _)
  cases Fuel.unique (f := fun n => checkHeader ⟨header++data,fun _ => false⟩ n .fresh) (fun _ _ h => checkHeader_mono h) hs hs'
  exact hrest

theorem Gzip.checkHeader_opens {header : List UInt8} (data : List UInt8) (hh : IsHeader header) :
    ∃ fuel s, checkHeader ⟨header++data,fun _ => false⟩ fuel .fresh = some (0,s) := by
  have hread : ∀ n, (⟨header++data,fun _ => false⟩ : RawFile).fails n = false := fun _ => rfl
  obtain ⟨s,hs,_⟩ := checkHeader_header hread rfl hh (Nat.lt_succ_self _)
  exact ⟨_,s,hs⟩

theorem Bzip.checkHeader_accepts {data : List UInt8} (hh : Starts IsHeader data) {z : ZBuf}
    (hz : checkHeader ⟨data,fun _ => false⟩ .fresh = some (0,z)) : z.Rest ⟨data,fun _ => false⟩ data := by
  obtain ⟨raw,hraw⟩ : ∃ raw : RawFile, raw = ⟨data,fun _ => false⟩ := ⟨_,rfl⟩
  have hread : ∀ n, raw.fails n = false := by simp [hraw]
  have hdata : raw.content = data := by rw [hraw]
  rw [← hraw] at hz ⊢
  rw [← hdata] at hh ⊢
  rcases checkHeader_cases hread with ⟨_,z',hz',hrest⟩ | ⟨hshort,_⟩ | ⟨⟨hno,_⟩,_⟩
  · cases hz.symm.trans hz'
    exact hrest
  · obtain ⟨_,⟨c,_,rfl⟩,hpre⟩ := hh
    have hlen := (hpre.trans hshort).length_le
    simp only [List.length_cons,List.length_nil] at hlen
    omega
  · exact absurd hh hno

theorem Bzip.headerRight_iff (data : List UInt8) : HeaderRight data ↔ ¬data <+: [66,90,104] := by
  obtain ⟨raw,hraw⟩ : ∃ raw : RawFile, raw = ⟨data,fun _ => false⟩ := ⟨_,rfl⟩
  have hread : ∀ n, raw.fails n = false := by simp [hraw]
  have hdata : raw.content = data := by rw [hraw]
  rw [HeaderRight,← hraw,← hdata]
  rcases checkHeader_cases hread with ⟨⟨_,⟨c,_,rfl⟩,l,hl⟩,z,hz,hrest⟩ | ⟨hshort,hall⟩ | ⟨⟨_,hlong⟩,l,z,hz,hl⟩
  · refine iff_of_true ⟨0,z,hz,hrest.sound,0,Nat.zero_le _,hrest.unread⟩ fun h => ?_
    have hlen := h.length_le
    simp only [← hl,List.length_append,List.length_cons,List.length_nil] at hlen
    omega
  · refine iff_of_false ?_ (not_not_intro hshort)
    rintro ⟨rc,z,hz,hsound,_⟩
    exact Bool.false_ne_true (hsound.symm.trans (hall _ hz))
  · obtain ⟨pre,hpre,_⟩ := hl.place
    refine iff_of_true ⟨1,z,hz,hl.rest.sound,pre.length,by simp [hpre],hl.rest.unread.trans ?_⟩ hlong
    rw [hpre,List.drop_left]

/-- What checks of headers take for granted is a file that does not end inside its header. -/
theorem header_checks_right_iff (data : List UInt8) :
    (Gzip.HeaderRight data ↔ ¬Gzip.Short data) ∧ (Bzip.HeaderRight data ↔ ¬data <+: [66,90,104]) :=
  ⟨Gzip.headerRight_iff data,Bzip.headerRight_iff data⟩

open Gzip in
/-- A file that ends in the name. -/
theorem header_cut_in_name : ¬HeaderRight [0x1f,0x8b,8,8,0,0,0,0,0,3,97] := by
  rw [headerRight_iff,not_not]
  have hextra : opt extra (Has (8 : UInt8).toNat 0x04) [] := ⟨fun h => absurd h (by decide),fun _ => rfl⟩
  have hname : opt (marked 0) (Has (8 : UInt8).toNat 0x08) ([97,0] : List UInt8) :=
    ⟨fun _ => ⟨[97],by decide,rfl⟩,fun h => absurd (by decide) h⟩
  have hcomment : opt (marked (0 : UInt8)) (Has (8 : UInt8).toNat 0x10) [] := ⟨fun h => absurd h (by decide),fun _ => rfl⟩
  have hcrc : opt (fixed (α := UInt8) 2) (Has (8 : UInt8).toNat 0x02) [] := ⟨fun h => absurd h (by decide),fun _ => rfl⟩
  have hfields : fields (8 : UInt8).toNat [0,0,0,0,0,3,97,0] :=
    ⟨[0,0,0,0,0,3],_,rfl,⟨[],_,hextra,⟨[97,0],_,hname,⟨[],[],hcomment,hcrc,rfl⟩,rfl⟩,rfl⟩,rfl⟩
  exact .inl ⟨[0],List.cons_ne_nil _ _,8,_,by decide,hfields,rfl⟩

end Blub.Stand
