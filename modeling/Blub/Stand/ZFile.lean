import Blub.Stand.ReadAhead
import Blub.Stand.ZHeader

/-! Reads and seeks in a compressed file: `zf_read`, `zf_rewind` and `zf_seek` of `gzipfs.c`, and those of `bzipfs.c`. The
decompressor is a parameter. -/
namespace Blub.Stand

/-- `Z_OK`, `Z_STREAM_END` and the errors, or the `BZ_` ones. -/
inductive ZCode
  | ok
  | streamEnd
  | error
  deriving DecidableEq

/-- A pass of a decompressor: its next state, how much input it has taken, the bytes that it gives, and the code. -/
structure Pass (ε : Type*) where
  next : ε
  taken : ℕ
  bytes : List UInt8
  code : ZCode

/-- A decompressor. A pass has the input and the room for output. -/
structure Engine (ε : Type*) where
  init : ε
  pass : ε → List UInt8 → ℕ → Pass ε

/-- A `z_file` or a `bz_file`. The low bits of `out` are `total_out`, or `total_out_lo32`. -/
structure ZFile (ε : Type*) where
  z : ZBuf
  engine : ε
  out : ℕ
  endseen : Bool

section Code
variable {ε : Type*} (raw : RawFile) (en : Engine ε)

def zEio : ℤ := 5

/-- The loop of `zf_read` and `bzf_read`, with the room that is left and the bytes so far. -/
def zReadLoop : ℕ → ℕ → List UInt8 → ZFile ε → Option (ℤ × List UInt8 × ZFile ε)
  | 0, _, _, _ => none
  | fuel+1, availOut, got, f =>
    if availOut = 0 ∨ f.endseen = true then some (0,got,f)
    else
      let r := if f.z.availIn = 0 then zFill raw f.z else (0,f.z)
      if r.1 = -1 then some (zEio,got,{f with z := r.2})
      else if r.2.availIn = 0 then some (if got.length = 0 then zEio else 0,got,{f with z := r.2})
      else
        let p := en.pass f.engine r.2.input availOut
        let z := {r.2 with nextIn := r.2.nextIn+p.taken, availIn := r.2.availIn-p.taken}
        let f : ZFile ε := ⟨z,p.next,f.out+p.bytes.length,f.endseen⟩
        match p.code with
        | .streamEnd => some (0,got++p.bytes,{f with endseen := true})
        | .error => some (zEio,got++p.bytes,f)
        | .ok => zReadLoop fuel (availOut-p.bytes.length) (got++p.bytes) f

/-- `zf_read` and `bzf_read`: the error, the bytes and the file. -/
def zRead (fuel size : ℕ) (f : ZFile ε) : Option (ℤ × List UInt8 × ZFile ε) := zReadLoop raw en fuel size [] f

/-- `zf_rewind`, where `lseek` succeeds. -/
def zfRewind (dataoffset : ℕ) (f : ZFile ε) : ZFile ε where
  z := {f.z with availIn := 0, nextIn := 0, pos := dataoffset}
  engine := en.init
  out := 0
  endseen := false

/-- `bzf_rewind`, where memory is had and `lseek` succeeds. -/
def bzfRewind (f : ZFile ε) : ZFile ε where
  z := {ZBuf.fresh with reads := f.z.reads}
  engine := en.init
  out := 0
  endseen := false

/-- A conversion to `off_t`. -/
def toOffT (n : ℤ) : ℤ := (n+2^63)%2^64-2^63

/-- An `off_t` as it is compared with a total of `bits` bits, which makes the comparison unsigned if it is as wide. -/
def versus (bits : ℕ) (t : ℤ) : ℤ := if bits < 64 then t else t%2^64

/-- The target of a seek; none for `SEEK_END`, which falls through to the default. -/
def zTarget (total : ℕ) (offset : ℤ) : Whence → Option ℤ
  | .set => some (toOffT offset)
  | .cur => some (toOffT (offset+total))
  | .end => none

attribute [local grind =] zReadLoop zTarget

variable (bits : ℕ)

def ZFile.total (f : ZFile ε) : ℕ := f.out%2^bits

/-- The loop that skips forwards, with `min` on `u_int`s. -/
def skipForwards (reading : ℕ) (target : ℤ) : ℕ → ZFile ε → Option (ℤ × ZFile ε)
  | 0, _ => none
  | fuel+1, f =>
    if f.total bits < versus bits target then
      match zRead raw en reading (min 16 ((target-f.total bits)%2^32).toNat) f with
      | none => none
      | some (errno,_,f) => if errno ≠ 0 then some (-1,f) else skipForwards reading target fuel f
    else some (toOffT (f.total bits),f)

/-- `zf_seek` and `bzf_seek`. `rewound` is the file where it can be rewound. -/
def zSeek (rewound : Option (ZFile ε)) (fuel : ℕ) (offset : ℤ) (whence : Whence) (f : ZFile ε) : Option (ℤ × ZFile ε) :=
  match zTarget (f.total bits) offset whence with
  | none => some (-1,f)
  | some target =>
    if versus bits target < f.total bits then
      match rewound with
      | none => some (-1,f)
      | some f => skipForwards raw en bits fuel target fuel f
    else skipForwards raw en bits fuel target fuel f

/-- `zf_seek`, where `lseek` succeeds or not, and `u_long` has as many bits. -/
def zfSeek (dataoffset : ℕ) (lseek : Bool) (fuel : ℕ) (offset : ℤ) (whence : Whence) (f : ZFile ε) : Option (ℤ × ZFile ε) :=
  zSeek raw en bits (if lseek then some (zfRewind en dataoffset f) else none) fuel offset whence f

/-- `bzf_seek`, where `bzf_rewind` succeeds or not. -/
def bzfSeek (rewinds : Bool) (fuel : ℕ) (offset : ℤ) (whence : Whence) (f : ZFile ε) : Option (ℤ × ZFile ε) :=
  zSeek raw en 32 (if rewinds then some (bzfRewind en f) else none) fuel offset whence f

attribute [local grind =] skipForwards zSeek

end Code

theorem versus_mod (bits : ℕ) (t : ℤ) (total : ℕ) : (t-total)%2^32 = (versus bits t-total)%2^32 := by
  unfold versus
  split_ifs
  · rfl
  · omega

section Spec
variable {ε : Type*} {raw : RawFile} {en : Engine ε}

/-- What a pass does where `c` bytes have been consumed and `p` given: it reports the end, all being given, or makes
progress. -/
structure Pass.Right (length : ℕ) (At : ε → ℕ → ℕ → Prop) (c p input room : ℕ) (r : Pass ε) : Prop where
  taken_le : r.taken ≤ input
  bytes_le : r.bytes.length ≤ room
  goes : (r.code = .streamEnd ∧ p+r.bytes.length = length) ∨
    (r.code = .ok ∧ 0 < r.taken+r.bytes.length ∧ At r.next (c+r.taken) (p+r.bytes.length))

/-- The data decompress to `length` bytes. `At` says what a state has consumed and given: while the end is not reported there
is input left, and every pass with input and room is right. -/
structure Engine.Decodes (en : Engine ε) (data : List UInt8) (length : ℕ) (At : ε → ℕ → ℕ → Prop) : Prop where
  init : At en.init 0 0
  left {e : ε} {c p : ℕ} (h : At e c p) : c < data.length ∧ p ≤ length
  pass {e : ε} {c p : ℕ} (h : At e c p) {input : List UInt8} (hne : input ≠ []) (hin : input <+: data.drop c) {room : ℕ}
    (hroom : 0 < room) : (en.pass e input room).Right length At c p input.length room

variable {data : List UInt8} {length : ℕ} {At : ε → ℕ → ℕ → Prop} (hdec : en.Decodes data length At)

/-- The file between two calls: at the end, or where the decompressor is. -/
structure ZFile.Tracks (raw : RawFile) (data : List UInt8) (length : ℕ) (At : ε → ℕ → ℕ → Prop) (f : ZFile ε) : Prop where
  size : f.z.buf.length = zBufsize
  sound : f.z.wrapped = false
  ended (h : f.endseen = true) : f.out = length
  live (h : f.endseen = false) : ∃ c, At f.engine c f.out ∧ f.z.Rest raw (data.drop c)

include hdec

theorem ZFile.Tracks.out_le {f : ZFile ε} (h : f.Tracks raw data length At) : f.out ≤ length := by
  cases he : f.endseen with
  | true => exact (h.ended he).le
  | false =>
    obtain ⟨c,hc,_⟩ := h.live he
    exact (hdec.left hc).2

omit hdec in
/-- The buffer as a turn of the loop looks at it. -/
theorem ZBuf.Rest.loaded {z : ZBuf} {l : List UInt8} (h : z.Rest raw l) (hl : l ≠ []) :
    ∃ n z', (if z.availIn = 0 then zFill raw z else (0,z)) = (n,z') ∧ z'.Rest raw l ∧
      (n = -1 → ∃ k, raw.fails k = true) ∧ (n ≠ -1 → z'.input ≠ []) := by
  by_cases hempty : z.availIn = 0
  · obtain ⟨hrest,hfail,hinput⟩ := h.fill hempty
    refine ⟨(zFill raw z).1,(zFill raw z).2,if_pos hempty,hrest,fun hn => ⟨_,hfail.mp hn⟩,fun hn => ?_⟩
    rw [hinput (Bool.eq_false_iff.mpr (mt hfail.mpr hn)),ne_eq,List.take_eq_nil_iff,not_or]
    exact ⟨by decide,hl⟩
  · refine ⟨0,z,if_neg hempty,h,fun hn => absurd hn (by decide),fun _ hin => hempty ?_⟩
    rw [← h.length_input,hin,List.length_nil]

omit hdec in
/-- The input that a pass has taken. -/
theorem ZBuf.Rest.take {z : ZBuf} {l : List UInt8} (h : z.Rest raw l) {n : ℕ} (hn : n ≤ z.input.length) :
    ZBuf.Rest raw {z with nextIn := z.nextIn+n, availIn := z.availIn-n} (l.drop n) := by
  rw [h.length_input] at hn
  have hinside := h.inside
  refine ⟨h.size,by dsimp only; omega,?_,h.sound⟩
  rw [← h.unread,List.drop_append_of_le_length (by rw [h.length_input]; exact hn)]
  simp only [input]
  rw [List.drop_take,List.drop_drop]

/-- What the read loop keeps and does, with or without reads that fail. -/
structure ReadOut (raw : RawFile) (data : List UInt8) (length : ℕ) (At : ε → ℕ → ℕ → Prop) (room : ℕ) (f : ZFile ε)
    (r : ℤ × List UInt8 × ZFile ε) : Prop where
  tracks : r.2.2.Tracks raw data length At
  out_ge : f.out ≤ r.2.2.out
  out_le : r.2.2.out ≤ f.out+room
  done (h : r.1 = 0) : r.2.2.out = f.out+room ∨ r.2.2.endseen = true
  calm (h : ∀ k, raw.fails k = false) : r.1 = 0

/-- One turn, before the end: the loop is left, or a pass has made progress. -/
theorem zReadLoop_turn {room c : ℕ} (got : List UInt8) {f : ZFile ε} (hroom : room ≠ 0) (hlive : f.endseen = false)
    (hc : At f.engine c f.out) (hrest : f.z.Rest raw (data.drop c)) :
    (∃ r, (∀ fuel, zReadLoop raw en (fuel+1) room got f = some r) ∧ ReadOut raw data length At room f r) ∨
      ∃ (p : Pass ε) (z : ZBuf), (∀ fuel, zReadLoop raw en (fuel+1) room got f =
          zReadLoop raw en fuel (room-p.bytes.length) (got++p.bytes) ⟨z,p.next,f.out+p.bytes.length,false⟩) ∧
        (p.bytes.length ≤ room ∧ 0 < p.taken+p.bytes.length) ∧ At p.next (c+p.taken) (f.out+p.bytes.length) ∧
          z.Rest raw (data.drop (c+p.taken)) := by
  have hgo : ¬(room = 0 ∨ f.endseen = true) := by simp [hroom,hlive]
  have hne : data.drop c ≠ [] := by
    have hleft := hdec.left hc
    rw [ne_eq,List.drop_eq_nil_iff]
    omega
  obtain ⟨n,z,hload,hz,hfail,hinput⟩ := hrest.loaded hne
  by_cases hn : n = -1
  · refine .inl ⟨(zEio,got,{f with z}),fun fuel => ?_,?_⟩
    · rw [zReadLoop,if_neg hgo,hload]
      simp only [if_pos hn]
    · refine ⟨⟨hz.size,hz.sound,fun he => absurd he (by simp [hlive]),fun _ => ⟨c,hc,hz⟩⟩,le_rfl,Nat.le_add_right _ _,
        fun h₀ => absurd h₀ (show zEio ≠ 0 by decide),fun hcalm => ?_⟩
      obtain ⟨k,hk⟩ := hfail hn
      exact absurd (hk.symm.trans (hcalm k)) (by decide)
  · have hin := hinput hn
    have havail : z.availIn ≠ 0 := by
      rw [← hz.length_input]
      exact fun h₀ => hin (List.length_eq_zero_iff.mp h₀)
    have hpass := hdec.pass hc hin ⟨_,hz.unread⟩ (Nat.pos_of_ne_zero hroom)
    have hbytes := hpass.bytes_le
    obtain ⟨p,hp⟩ : ∃ p, p = en.pass f.engine z.input room := ⟨_,rfl⟩
    obtain ⟨t,ht⟩ : ∃ t : ZBuf, t = {z with nextIn := z.nextIn+p.taken, availIn := z.availIn-p.taken} := ⟨_,rfl⟩
    rw [← hp] at hpass hbytes
    rcases hpass.goes with ⟨hcode,hlen⟩ | ⟨hcode,hprogress,hat⟩
    · refine .inl ⟨(0,got++p.bytes,⟨t,p.next,f.out+p.bytes.length,true⟩),fun fuel => ?_,?_⟩
      · rw [zReadLoop,if_neg hgo,hload]
        simp only [if_neg hn,if_neg havail,← hp,hcode,ht]
      · exact ⟨⟨ht ▸ hz.size,ht ▸ hz.sound,fun _ => hlen,nofun⟩,Nat.le_add_right _ _,by dsimp only; omega,fun _ => .inr rfl,fun _ => rfl⟩
    · have htaken := hz.take hpass.taken_le
      rw [List.drop_drop,← ht] at htaken
      refine .inr ⟨p,t,fun fuel => ?_,⟨hbytes,hprogress⟩,hat,htaken⟩
      rw [zReadLoop,if_neg hgo,hload]
      simp only [if_neg hn,if_neg havail,← hp,hcode,hlive,ht]

omit hdec in
/-- Without room, or after the end, nothing is read. -/
theorem zReadLoop_idle {room : ℕ} {got : List UInt8} {f : ZFile ε} (h : room = 0 ∨ f.endseen = true) (fuel : ℕ) :
    zReadLoop raw en (fuel+1) room got f = some (0,got,f) := by
  rw [zReadLoop,if_pos h]

theorem zReadLoop_spec {fuel room : ℕ} {got : List UInt8} {f : ZFile ε} {r : ℤ × List UInt8 × ZFile ε}
    (hf : f.Tracks raw data length At) (h : zReadLoop raw en fuel room got f = some r) :
    ReadOut raw data length At room f r := by
  induction fuel generalizing room got f with
  | zero => cases h
  | succ fuel ih =>
    by_cases hstop : room = 0 ∨ f.endseen = true
    · rw [zReadLoop_idle hstop] at h
      cases h
      refine ⟨hf,le_rfl,Nat.le_add_right _ _,fun _ => ?_,fun _ => rfl⟩
      exact hstop.imp_left (fun h₀ => by simp [h₀])
    · rw [not_or,Bool.not_eq_true] at hstop
      obtain ⟨c,hc,hrest⟩ := hf.live hstop.2
      rcases zReadLoop_turn hdec got hstop.1 hstop.2 hc hrest with ⟨r',hr,hout⟩ | ⟨p,z,hr,⟨hle,_⟩,hat,hz⟩
      · rw [hr] at h
        cases h
        exact hout
      · rw [hr] at h
        obtain ⟨htracks,hge,hle',hdone,hcalm⟩ := ih ⟨hz.size,hz.sound,fun he => absurd he Bool.false_ne_true,fun _ => ⟨_,hat,hz⟩⟩ h
        dsimp only at hge hle' hdone
        exact ⟨htracks,by omega,by omega,fun h₀ => (hdone h₀).imp_left (by omega),hcalm⟩

/-- What is left to consume and to give bounds the passes. -/
theorem zReadLoop_ends {fuel room c : ℕ} {got : List UInt8} {f : ZFile ε} (hlive : f.endseen = false) (hc : At f.engine c f.out) (hrest : f.z.Rest raw (data.drop c))
    (hfuel : data.length+length-(c+f.out) < fuel) : ∃ r, zReadLoop raw en fuel room got f = some r := by
  induction fuel generalizing room got f c with
  | zero => omega
  | succ fuel ih =>
    by_cases hroom : room = 0
    · exact ⟨_,zReadLoop_idle (.inl hroom) fuel⟩
    · rcases zReadLoop_turn hdec got hroom hlive hc hrest with ⟨r,hr,_⟩ | ⟨p,z,hr,⟨_,hprogress⟩,hat,hz⟩
      · exact ⟨r,hr fuel⟩
      · rw [hr]
        have hleft := hdec.left hat
        exact ih rfl hat hz (by dsimp only; omega)

theorem zRead_ends {fuel : ℕ} (room : ℕ) {f : ZFile ε} (hf : f.Tracks raw data length At) (hfuel : data.length+length < fuel) :
    ∃ r, zRead raw en fuel room f = some r := by
  cases he : f.endseen with
  | false =>
    obtain ⟨c,hc,hrest⟩ := hf.live he
    exact zReadLoop_ends hdec he hc hrest (by omega)
  | true =>
    cases fuel with
    | zero => omega
    | succ fuel => exact ⟨_,zReadLoop_idle (.inr he) fuel⟩

omit hdec in
theorem ZFile.total_lt (bits : ℕ) (f : ZFile ε) : (f.total bits : ℤ) < 2^bits := by
  exact_mod_cast Nat.mod_lt f.out (Nat.two_pow_pos bits)

omit hdec in
theorem ZFile.total_le (bits : ℕ) {f g : ZFile ε} (h : f.out ≤ g.out) : g.total bits ≤ f.total bits+(g.out-f.out) := by
  obtain ⟨d,hd⟩ := Nat.exists_eq_add_of_le h
  rw [ZFile.total,ZFile.total,hd,Nat.add_sub_cancel_left]
  conv_lhs => rw [Nat.add_mod]
  have hmod := Nat.mod_le d (2^bits)
  exact (Nat.mod_le _ _).trans (by omega)

omit hdec in
theorem ZFile.total_eq (bits : ℕ) {f g : ZFile ε} (h : f.out ≤ g.out)
    (hlt : (f.total bits : ℤ)+(g.out-f.out : ℕ) < 2^bits) : g.total bits = f.total bits+(g.out-f.out) := by
  obtain ⟨d,hd⟩ := Nat.exists_eq_add_of_le h
  rw [hd,Nat.add_sub_cancel_left] at hlt
  have hlt' : f.out%2^bits+d < 2^bits := by exact_mod_cast hlt
  rw [ZFile.total,ZFile.total,hd,Nat.add_sub_cancel_left,Nat.add_mod,Nat.mod_eq_of_lt (a := d) (by omega),
    Nat.mod_eq_of_lt hlt']

/-- How far the loop is to go. -/
def ZFile.gap (bits : ℕ) (t : ℤ) (f : ZFile ε) : ℤ := versus bits t-f.total bits

/-- The loop can go to its target: it is in the range of the total, less than `2^32` away, and inside the data. -/
structure ZFile.Reaches (bits length : ℕ) (t : ℤ) (f : ZFile ε) : Prop where
  range : versus bits t < 2^bits
  near : f.gap bits t < 2^32
  inside : f.out+f.gap bits t ≤ length

/-- A loop that can go to its target does, unless a read fails. -/
theorem skipForwards_reaches {bits : ℕ} (reading fuel : ℕ) {t : ℤ} {f : ZFile ε} (hf : f.Tracks raw data length At)
    (hreading : data.length+length < reading) (hle : 0 ≤ f.gap bits t) (hr : f.Reaches bits length t)
    (hfuel : f.gap bits t < fuel) :
    ∃ r f', skipForwards raw en bits reading t fuel f = some (r,f') ∧
      (r = -1 ∨ r = toOffT (versus bits t) ∧ f'.out = f.out+f.gap bits t) := by
  induction fuel generalizing f with
  | zero => omega
  | succ fuel ih =>
    have hgap : f.gap bits t = versus bits t-f.total bits := rfl
    rw [skipForwards]
    by_cases hmore : (f.total bits : ℤ) < versus bits t
    · rw [if_pos hmore]
      obtain ⟨n,hn⟩ : ∃ n, n = min 16 ((t-(f.total bits : ℤ))%2^32).toNat := ⟨_,rfl⟩
      rw [← hn]
      rw [versus_mod bits,← hgap] at hn
      have hnear := hr.near
      have hn₀ : 0 < n ∧ (n : ℤ) ≤ f.gap bits t := by omega
      obtain ⟨⟨e,got,f₁⟩,hread⟩ := zRead_ends hdec n hf hreading
      obtain ⟨htracks,hge,hle₁,hdone,_⟩ := zReadLoop_spec hdec hf hread
      dsimp only at htracks hge hle₁ hdone
      rw [hread]
      dsimp only
      by_cases he : e = 0
      · rw [if_neg (not_not_intro he)]
        have hinside := hr.inside
        have hgone : f.out < f₁.out ∧ (f₁.out : ℤ)-f.out ≤ f.gap bits t := by
          rcases hdone he with h₁ | hend
          · omega
          · have h₁ := htracks.ended hend
            omega
        have htotal := ZFile.total_eq bits hge (by have := hr.range; omega)
        have hgap₁ : f₁.gap bits t = f.gap bits t-(f₁.out-f.out) := by
          rw [ZFile.gap,htotal,hgap]
          omega
        obtain ⟨r,f',hskip,hres⟩ := ih htracks (by omega) ⟨hr.range,by omega,by omega⟩ (by omega)
        exact ⟨r,f',hskip,hres.imp_right fun h => ⟨h.1,by omega⟩⟩
      · exact ⟨-1,f₁,if_pos he,.inl rfl⟩
    · rw [if_neg hmore]
      have heq : versus bits t = f.total bits := by omega
      exact ⟨_,f,rfl,.inr ⟨by rw [heq],by omega⟩⟩

/-- Where no read fails, a loop that ends has gone to its target, and could. -/
theorem skipForwards_exact {bits reading fuel : ℕ} {t r : ℤ} {f f' : ZFile ε} (hf : f.Tracks raw data length At)
    (hcalm : ∀ k, raw.fails k = false) (hle : 0 ≤ f.gap bits t)
    (h : skipForwards raw en bits reading t fuel f = some (r,f')) :
    f.Reaches bits length t ∧ r = toOffT (versus bits t) ∧ f'.out = f.out+f.gap bits t := by
  induction fuel generalizing f with
  | zero => cases h
  | succ fuel ih =>
    have hgap : f.gap bits t = versus bits t-f.total bits := rfl
    rw [skipForwards] at h
    by_cases hmore : (f.total bits : ℤ) < versus bits t
    · rw [if_pos hmore] at h
      obtain ⟨n,hn⟩ : ∃ n, n = min 16 ((t-(f.total bits : ℤ))%2^32).toNat := ⟨_,rfl⟩
      rw [← hn] at h
      rw [versus_mod bits,← hgap] at hn
      have hnle : (n : ℤ) ≤ f.gap bits t%2^32 := by omega
      cases hread : zRead raw en reading n f with
      | none =>
        rw [hread] at h
        cases h
      | some r₁ =>
        obtain ⟨e,got,f₁⟩ := r₁
        obtain ⟨htracks,hge,hle₁,_,he⟩ := zReadLoop_spec hdec hf hread
        dsimp only at htracks hge hle₁ he
        rw [hread] at h
        dsimp only at h
        rw [if_neg (not_not_intro (he hcalm))] at h
        have hnext := ZFile.total_le bits hge
        have hgap₁ : f₁.gap bits t = versus bits t-f₁.total bits := rfl
        obtain ⟨⟨hrange,hnear,hinside⟩,hr,hout⟩ := ih htracks (by omega) h
        have hsame := ZFile.total_eq bits hge (by omega)
        exact ⟨⟨hrange,by omega,by omega⟩,hr,by omega⟩
    · rw [if_neg hmore,Option.some.injEq,Prod.mk.injEq] at h
      have heq : versus bits t = f.total bits := by omega
      have hout := hf.out_le hdec
      have hzero : f.gap bits t = 0 := by omega
      exact ⟨⟨heq ▸ f.total_lt bits,by rw [hzero]; decide,by omega⟩,by rw [heq]; exact h.1.symm,by rw [← h.2,hzero]; simp⟩

omit hdec in
theorem ZFile.Tracks.congr (raw' : RawFile) (h : raw'.content = raw.content) {f : ZFile ε}
    (hf : f.Tracks raw data length At) : f.Tracks raw' data length At := by
  refine ⟨hf.size,hf.sound,hf.ended,fun he => ?_⟩
  obtain ⟨c,hc,hrest⟩ := hf.live he
  exact ⟨c,hc,hrest.size,hrest.inside,h ▸ hrest.unread,hrest.sound⟩

theorem zfRewind_tracks {dataoffset : ℕ} (hdata : raw.content.drop dataoffset = data) {f : ZFile ε}
    (hf : f.Tracks raw data length At) : (zfRewind en dataoffset f).Tracks raw data length At :=
  ⟨hf.size,hf.sound,nofun,fun _ => ⟨0,hdec.init,hf.size,Nat.zero_le _,by simpa [zfRewind,ZBuf.input] using hdata,hf.sound⟩⟩

theorem bzfRewind_tracks (hdata : raw.content = data) (f : ZFile ε) : (bzfRewind en f).Tracks raw data length At := by
  have hrest : ZBuf.fresh.Rest raw raw.content := ZBuf.fresh_rest
  rw [hdata] at hrest
  exact ⟨hrest.size,rfl,nofun,fun _ => ⟨0,hdec.init,hrest.size,hrest.inside,hrest.unread,rfl⟩⟩

/-- A file just opened, in front of the data. -/
theorem opened_tracks {z : ZBuf} (hz : z.Rest raw data) : ZFile.Tracks raw data length At ⟨z,en.init,0,false⟩ :=
  ⟨hz.size,hz.sound,nofun,fun _ => ⟨0,hdec.init,hz⟩⟩

theorem skipForwards_tracks {bits reading fuel : ℕ} {t r : ℤ} {f f' : ZFile ε} (hf : f.Tracks raw data length At)
    (h : skipForwards raw en bits reading t fuel f = some (r,f')) : f'.Tracks raw data length At := by
  induction fuel generalizing f with
  | zero => cases h
  | succ fuel ih =>
    rw [skipForwards] at h
    split at h
    · split at h
      · cases h
      · rename_i hread
        have htracks := (zReadLoop_spec hdec hf hread).tracks
        split at h
        · cases h
          exact htracks
        · exact ih htracks h
    · rw [Option.some.injEq,Prod.mk.injEq] at h
      rw [← h.2]
      exact hf

theorem zSeek_tracks {bits fuel : ℕ} {offset : ℤ} {whence : Whence} {f : ZFile ε} {g : Option (ZFile ε)} {r : ℤ × ZFile ε}
    (hf : f.Tracks raw data length At) (hg : ∀ g', g = some g' → g'.Tracks raw data length At)
    (h : zSeek raw en bits g fuel offset whence f = some r) : r.2.Tracks raw data length At := by
  unfold zSeek at h
  split at h
  · cases h
    exact hf
  · split at h
    · split at h
      · cases h
        exact hf
      · exact skipForwards_tracks hdec (hg _ rfl) h
    · exact skipForwards_tracks hdec hf h

end Spec

/-- The calls between opening and closing a file, while it can be read. -/
inductive ZSession {ε : Type*} (raw : RawFile) (en : Engine ε) (seek : Bool → ℕ → ℤ → Whence → ZFile ε → Option (ℤ × ZFile ε))
    (f₀ : ZFile ε) : ZFile ε → Prop
  | opened : ZSession raw en seek f₀ f₀
  | read {f : ZFile ε} {fuel size : ℕ} {r : ℤ × List UInt8 × ZFile ε} (hf : ZSession raw en seek f₀ f)
      (h : zRead raw en fuel size f = some r) : ZSession raw en seek f₀ r.2.2
  | seek {f : ZFile ε} {lseek : Bool} {fuel : ℕ} {offset : ℤ} {whence : Whence} {r : ℤ × ZFile ε}
      (hf : ZSession raw en seek f₀ f) (h : seek lseek fuel offset whence f = some r) : ZSession raw en seek f₀ r.2

section Seek
variable {ε : Type*} {en : Engine ε} {data content : List UInt8} {length : ℕ} {At : ε → ℕ → ℕ → Prop}
  (hdec : en.Decodes data length At)

/-- A seek ends, whichever reads fail and whether or not the file can be rewound, and returns -1 or the position reached,
which is the target or the end of the data. -/
def SeekRight (seek : RawFile → Bool → ℕ → ℤ → Whence → ZFile ε → Option (ℤ × ZFile ε)) (content : List UInt8) (length bits : ℕ)
    (offset : ℤ) (whence : Whence) (f : ZFile ε) : Prop :=
  ∀ (fails : ℕ → Bool) (lseek : Bool), ∃ fuel r f', seek ⟨content,fails⟩ lseek fuel offset whence f = some (r,f') ∧
    (r = -1 ∨ ∃ t, zTarget (f.total bits) offset whence = some t ∧ r = min t length ∧ (f'.out : ℤ) = r)

/-- The target is inside the data and in the range of the total, and the place from which the bytes are skipped, 0 if the file
is rewound, is before it and less than `2^32` bytes away. (Or it is -1, which an unsigned comparison takes for `2^64-1`, and
the data are as long.) -/
def SeekFits (length bits : ℕ) (f : ZFile ε) (t : ℤ) : Prop :=
  let q : ℤ := if versus bits t < f.total bits then 0 else f.out
  ((0 ≤ t ∧ t ≤ length) ∧ t < 2^bits ∧ q ≤ t ∧ t-q < 2^32) ∨
    (t = -1 ∧ bits = 64) ∧ 2^64-1-(f.total bits : ℤ) < 2^32 ∧ f.out+(2^64-1-(f.total bits : ℤ)) ≤ length

theorem zTarget_range {total : ℕ} {offset t : ℤ} {whence : Whence} (h : zTarget total offset whence = some t) :
    -2^63 ≤ t ∧ t < 2^63 := by
  have hoff (n : ℤ) : -2^63 ≤ toOffT n ∧ toOffT n < 2^63 := by
    unfold toOffT
    omega
  cases whence <;> cases h
  · exact hoff _
  · exact hoff _

theorem toOffT_eq {n : ℤ} (h : -2^63 ≤ n) (h' : n < 2^63) : toOffT n = n := by
  unfold toOffT
  omega

theorem versus_32 (t : ℤ) : versus 32 t = t := if_pos (by decide)

theorem versus_64 (t : ℤ) : versus 64 t = t%2^64 := if_neg (by decide)

/-- From the place where the skip starts, the target is right exactly when it fits. -/
theorem fits_iff {bits : ℕ} (hbits : bits = 32 ∨ bits = 64) {f g : ZFile ε} {t : ℤ} (ht : -2^63 ≤ t ∧ t < 2^63)
    (hgap : 0 ≤ g.gap bits t)
    (hstart : g.out = f.out ∧ (f.total bits : ℤ) ≤ versus bits t ∨ g.out = 0 ∧ versus bits t < f.total bits) :
    SeekFits length bits f t ↔ g.Reaches bits length t ∧
      (toOffT (versus bits t) = -1 ∨ toOffT (versus bits t) = min t length ∧ g.out+g.gap bits t = toOffT (versus bits t)) := by
  have hq : (if versus bits t < f.total bits then 0 else (f.out : ℤ)) = g.out := by
    rcases hstart with ⟨hout,hle⟩ | ⟨hout,hlt⟩
    · rw [if_neg (by omega),hout]
    · rw [if_pos hlt,hout]
      rfl
  have hreaches : g.Reaches bits length t ↔ versus bits t < 2^bits ∧ g.gap bits t < 2^32 ∧ g.out+g.gap bits t ≤ length :=
    ⟨fun h => ⟨h.range,h.near,h.inside⟩,fun h => ⟨h.1,h.2.1,h.2.2⟩⟩
  have htotal : f.total bits = f.out%2^bits ∧ g.total bits = g.out%2^bits := ⟨rfl,rfl⟩
  rw [SeekFits,hreaches,hq]
  simp only [ZFile.gap] at hgap ⊢
  rcases hbits with rfl | rfl
  · rw [versus_32] at hstart hgap ⊢
    rw [toOffT_eq ht.1 ht.2]
    constructor <;> intro h <;> omega
  · rw [versus_64] at hstart hgap ⊢
    unfold toOffT
    rcases lt_or_ge t 0 with hneg | hpos
    · have hu : t%2^64 = t+2^64 := by omega
      rw [hu] at hstart hgap ⊢
      constructor <;> intro h <;> omega
    · have hu : t%2^64 = t := by omega
      rw [hu] at hstart hgap ⊢
      constructor <;> intro h <;> omega

include hdec

/-- A skip from `g`, which is the file or the rewound one. -/
theorem skip_right_iff {bits : ℕ} (hbits : bits = 32 ∨ bits = 64) {f g : ZFile ε} {t : ℤ} (ht : -2^63 ≤ t ∧ t < 2^63)
    (hg : g.Tracks ⟨content,fun _ => false⟩ data length At)
    (hstart : g.out = f.out ∧ (f.total bits : ℤ) ≤ versus bits t ∨ g.out = 0 ∧ versus bits t < f.total bits) :
    (∀ fails : ℕ → Bool, ∃ fuel r f', skipForwards ⟨content,fails⟩ en bits fuel t fuel g = some (r,f') ∧
        (r = -1 ∨ r = min t length ∧ (f'.out : ℤ) = r)) ↔ SeekFits length bits f t := by
  rcases lt_or_ge (g.gap bits t) 0 with hneg | hgap
  · -- a negative target, in a comparison of signed numbers: the rewound file is taken for the target
    have hvs : versus bits t = t ∧ t < 0 ∧ g.out = 0 ∧ bits = 32 := by
      simp only [ZFile.gap,ZFile.total] at hneg hstart
      rcases hstart with ⟨hout,hle⟩ | ⟨hout,_⟩
      · rw [hout] at hneg
        omega
      · rw [hout,Nat.zero_mod] at hneg
        rcases hbits with rfl | rfl
        · rw [versus_32] at hneg
          exact ⟨versus_32 t,by omega,hout,rfl⟩
        · rw [versus_64] at hneg
          omega
    have hg₀ : g.total bits = 0 := by
      rw [ZFile.total,hvs.2.2.1,Nat.zero_mod]
    apply iff_of_false
    · intro h
      obtain ⟨fuel,r,f',hskip,hr⟩ := h fun _ => false
      cases fuel with
      | zero => cases hskip
      | succ fuel =>
        rw [skipForwards,hg₀,hvs.1,if_neg (by omega),Option.some.injEq,Prod.mk.injEq] at hskip
        have hzero : toOffT ((0 : ℕ) : ℤ) = 0 := by decide
        rw [hzero] at hskip
        omega
    · rintro (⟨⟨h₀,_⟩,_⟩ | ⟨⟨_,h₆₄⟩,_⟩)
      · omega
      · omega
  · rw [fits_iff hbits ht hgap hstart]
    constructor
    · intro h
      obtain ⟨fuel,r,f',hskip,hr⟩ := h fun _ => false
      obtain ⟨hreaches,hres,hout⟩ := skipForwards_exact hdec hg (fun _ => rfl) hgap hskip
      rw [← hres,← hout]
      exact ⟨hreaches,hr⟩
    · rintro ⟨hreaches,hres⟩ fails
      have hcalm : g.Tracks ⟨content,fails⟩ data length At := hg.congr ⟨content,fails⟩ (by rfl)
      obtain ⟨fuel,hfuel⟩ : ∃ fuel, fuel = data.length+length+1+(g.gap bits t).toNat+1 := ⟨_,rfl⟩
      obtain ⟨r,f',hskip,hr⟩ := skipForwards_reaches hdec fuel fuel hcalm (by omega) hgap hreaches (by omega)
      refine ⟨_,r,f',hskip,?_⟩
      rcases hr with hfail | ⟨hval,hout⟩
      · exact .inl hfail
      · rw [hval,hout]
        exact hres

theorem zSeek_right_iff {bits : ℕ} (hbits : bits = 32 ∨ bits = 64) {offset : ℤ} {whence : Whence} {f g : ZFile ε}
    (hf : f.Tracks ⟨content,fun _ => false⟩ data length At) (hg : g.Tracks ⟨content,fun _ => false⟩ data length At)
    (hg₀ : g.out = 0) :
    SeekRight (fun raw lseek fuel => zSeek raw en bits (if lseek then some g else none) fuel) content length bits offset whence f ↔
      ∀ t, zTarget (f.total bits) offset whence = some t → SeekFits length bits f t := by
  cases htarget : zTarget (f.total bits) offset whence with
  | none =>
    refine iff_of_true (fun fails lseek => ⟨0,-1,f,?_,.inl rfl⟩) nofun
    simp only [zSeek,htarget]
  | some t =>
    have ht := zTarget_range htarget
    have hall : (∀ t', some t = some t' → SeekFits length bits f t') ↔ SeekFits length bits f t :=
      ⟨fun h => h t rfl,fun h t' heq => Option.some.inj heq ▸ h⟩
    rw [hall]
    by_cases hback : versus bits t < f.total bits
    · rw [← skip_right_iff hdec hbits ht hg (.inr ⟨hg₀,hback⟩)]
      constructor
      · intro h fails
        obtain ⟨fuel,r,f',hseek,hr⟩ := h fails true
        simp only [zSeek,htarget,if_pos hback] at hseek
        exact ⟨fuel,r,f',hseek,by simpa [htarget] using hr⟩
      · intro h fails lseek
        cases lseek with
        | false =>
          refine ⟨0,-1,f,?_,.inl rfl⟩
          simp only [zSeek,htarget,if_pos hback]
          rfl
        | true =>
          obtain ⟨fuel,r,f',hskip,hr⟩ := h fails
          refine ⟨fuel,r,f',?_,by simpa [htarget] using hr⟩
          simp only [zSeek,htarget,if_pos hback]
          exact hskip
    · rw [← skip_right_iff hdec hbits ht hf (.inl ⟨rfl,not_lt.mp hback⟩)]
      constructor
      · intro h fails
        obtain ⟨fuel,r,f',hseek,hr⟩ := h fails true
        simp only [zSeek,htarget,if_neg hback] at hseek
        exact ⟨fuel,r,f',hseek,by simpa [htarget] using hr⟩
      · intro h fails lseek
        obtain ⟨fuel,r,f',hskip,hr⟩ := h fails
        refine ⟨fuel,r,f',?_,by simpa [htarget] using hr⟩
        simp only [zSeek,htarget,if_neg hback]
        exact hskip

omit hdec in
theorem ZSession.keeps {raw : RawFile} {seek : Bool → ℕ → ℤ → Whence → ZFile ε → Option (ℤ × ZFile ε)} {P : ZFile ε → Prop}
    (hread : ∀ f fuel size r, P f → zRead raw en fuel size f = some r → P r.2.2)
    (hseek : ∀ f b fuel offset whence r, P f → seek b fuel offset whence f = some r → P r.2)
    {f₀ f : ZFile ε} (h₀ : P f₀) (h : ZSession raw en seek f₀ f) : P f := by
  induction h with
  | opened => exact h₀
  | read _ h ih => exact hread _ _ _ _ ih h
  | seek _ h ih => exact hseek _ _ _ _ _ _ ih h

/-- A file stays in step over reads and seeks, if rewinding it does not bring it out of step. -/
theorem session_tracks {raw : RawFile} {bits : ℕ} {rewound : ZFile ε → ZFile ε} {f₀ f : ZFile ε}
    (hrewind : ∀ g : ZFile ε, g.Tracks raw data length At → (rewound g).Tracks raw data length At)
    (h₀ : f₀.Tracks raw data length At)
    (h : ZSession raw en (fun lseek fuel offset whence g =>
      zSeek raw en bits (if lseek then some (rewound g) else none) fuel offset whence g) f₀ f) :
    f.Tracks raw data length At := by
  refine ZSession.keeps ?_ ?_ h₀ h
  · exact fun g _ _ r hg hr => (zReadLoop_spec hdec hg hr).tracks
  · intro g b _ _ _ r hg hr
    refine zSeek_tracks hdec hg (fun g' hg' => ?_) hr
    cases b with
    | false => cases hg'
    | true =>
      cases hg'
      exact hrewind g hg

/-- A seek in an open gzip or bzip2 file, after any reads and seeks, is right exactly when its target fits. -/
theorem compressed_seek_right_iff (bits : ℕ) (hbits : bits = 32 ∨ bits = 64) (offset : ℤ) (whence : Whence) (f : ZFile ε) :
    (∀ (header : List UInt8) (fuel : ℕ) (s : Gzip.Header), Gzip.IsHeader header →
      Gzip.checkHeader ⟨header++data,fun _ => false⟩ fuel .fresh = some (0,s) →
      ZSession ⟨header++data,fun _ => false⟩ en (zfSeek ⟨header++data,fun _ => false⟩ en bits s.dataoffset)
          ⟨s.z,en.init,0,false⟩ f →
      (SeekRight (fun raw => zfSeek raw en bits s.dataoffset) (header++data) length bits offset whence f ↔
        ∀ t, zTarget (f.total bits) offset whence = some t → SeekFits length bits f t)) ∧
    ∀ z, Fields.Starts Bzip.IsHeader data → Bzip.checkHeader ⟨data,fun _ => false⟩ .fresh = some (0,z) →
      ZSession ⟨data,fun _ => false⟩ en (bzfSeek ⟨data,fun _ => false⟩ en) ⟨z,en.init,0,false⟩ f →
      (SeekRight (fun raw => bzfSeek raw en) data length 32 offset whence f ↔
        ∀ t, zTarget (f.total 32) offset whence = some t → SeekFits length 32 f t) := by
  constructor
  · intro header fuel s hh hs hf
    obtain ⟨hz,hoff⟩ := Gzip.checkHeader_accepts hh hs
    have hdata : (⟨header++data,fun _ => false⟩ : RawFile).content.drop s.dataoffset = data := by simp [hoff]
    have hrewind {g : ZFile ε} (hg : g.Tracks ⟨header++data,fun _ => false⟩ data length At) := zfRewind_tracks hdec hdata hg
    have htracks : f.Tracks ⟨header++data,fun _ => false⟩ data length At :=
      session_tracks hdec (fun _ hg => hrewind hg) (opened_tracks hdec hz) hf
    exact zSeek_right_iff hdec hbits htracks (hrewind htracks) rfl
  · intro z hh hz hf
    have hrest := Bzip.checkHeader_accepts hh hz
    have hrewind (g : ZFile ε) : (bzfRewind en g).Tracks ⟨data,fun _ => false⟩ data length At := bzfRewind_tracks hdec rfl g
    have htracks : f.Tracks ⟨data,fun _ => false⟩ data length At :=
      session_tracks hdec (fun g _ => hrewind g) (opened_tracks hdec hrest) hf
    exact zSeek_right_iff hdec (.inl rfl) htracks (hrewind f) rfl

end Seek

section Runs
open Gzip

/-- A decompressor for data of which `n` bytes are read before the end is reported, with the bytes that it gives then. -/
def lastEngine (n : ℕ) (bytes : List UInt8) : Engine ℕ where
  init := 0
  pass c input _ :=
    let taken := min input.length (n-c)
    ⟨c+taken,taken,if c+taken = n then bytes else [],if c+taken = n then .streamEnd else .ok⟩

theorem lastEngine_decodes {n : ℕ} {bytes data : List UInt8} (hn : 0 < n) (hdata : n ≤ data.length) (hbytes : bytes.length ≤ 1) :
    (lastEngine n bytes).Decodes data bytes.length fun e c p => e = c ∧ c < n ∧ p = 0 where
  init := ⟨rfl,hn,rfl⟩
  left := by
    rintro e c p ⟨rfl,hc,rfl⟩
    omega
  pass := by
    rintro e c p ⟨rfl,hc,rfl⟩ input hne _ room hroom
    have hpos := List.length_pos_iff.mpr hne
    simp only [lastEngine]
    by_cases hlast : e+min input.length (n-e) = n
    · refine ⟨by simp,?_,.inl ⟨by simp [hlast],by simp [hlast]⟩⟩
      rw [if_pos hlast]
      dsimp only
      omega
    · refine ⟨by simp,by simp [hlast],.inr ⟨by simp [hlast],?_,rfl,?_,by simp [hlast]⟩⟩
      · exact Nat.add_pos_left (Nat.lt_min.mpr ⟨hpos,by omega⟩) _
      · have hle := Nat.min_le_right input.length (n-e)
        exact lt_of_le_of_ne (by dsimp only; omega) hlast

theorem total_opened (bits : ℕ) (z : ZBuf) : (⟨z,0,0,false⟩ : ZFile ℕ).total bits = 0 := Nat.zero_mod _

/-- A header without optional fields. -/
def plainHeader : List UInt8 := [0x1f,0x8b,8,0,0,0,0,0,0,3]

theorem plainHeader_header : IsHeader plainHeader := by
  refine ⟨0,[0,0,0,0,0,3],by decide,?_,rfl⟩
  have hno {F : List UInt8 → Prop} {mask : ℕ} (hmask : ¬Has (0 : UInt8).toNat mask) : Fields.opt F (Has (0 : UInt8).toNat mask) [] :=
    ⟨fun h => absurd h hmask,fun _ => rfl⟩
  exact ⟨[0,0,0,0,0,3],[],rfl,⟨[],[],hno (by decide),⟨[],[],hno (by decide),⟨[],[],hno (by decide),hno (by decide),rfl⟩,rfl⟩,rfl⟩,
    rfl⟩

/-- A stored block with the byte `A`, and the trailer. -/
def storedA : List UInt8 := [1,1,0,0xfe,0xff,0x41,0x8b,0x9e,0xd9,0xd3,1,0,0,0]

theorem storedA_decodes : (lastEngine 6 [0x41]).Decodes storedA 1 fun e c p => e = c ∧ c < 6 ∧ p = 0 :=
  lastEngine_decodes (by decide) (by decide) (by decide)

/-- To the end of the data. -/
theorem compressed_seek_right_end :
    ∃ fuel s, checkHeader ⟨plainHeader++storedA,fun _ => false⟩ fuel .fresh = some (0,s) ∧
      SeekRight (fun raw => zfSeek raw (lastEngine 6 [0x41]) 64 s.dataoffset) (plainHeader++storedA) 1 64 1 .set
        ⟨s.z,0,0,false⟩ := by
  obtain ⟨fuel,s,hs⟩ := checkHeader_opens storedA plainHeader_header
  refine ⟨fuel,s,hs,?_⟩
  refine ((compressed_seek_right_iff storedA_decodes 64 (.inr rfl) 1 .set ⟨s.z,0,0,false⟩).1 plainHeader fuel s
    plainHeader_header hs .opened).mpr fun t ht => ?_
  rw [total_opened] at ht
  have ht₁ : t = 1 := Option.some.inj (ht.symm.trans (by decide))
  rw [ht₁,SeekFits,total_opened]
  exact .inl (by dsimp only; decide)

/-- Past it, the seek does not end. -/
theorem seek_past_end :
    ∃ fuel s, checkHeader ⟨plainHeader++storedA,fun _ => false⟩ fuel .fresh = some (0,s) ∧
      ¬SeekRight (fun raw => zfSeek raw (lastEngine 6 [0x41]) 64 s.dataoffset) (plainHeader++storedA) 1 64 2 .set
        ⟨s.z,0,0,false⟩ := by
  obtain ⟨fuel,s,hs⟩ := checkHeader_opens storedA plainHeader_header
  refine ⟨fuel,s,hs,fun h => ?_⟩
  obtain ⟨hz,hoff⟩ := checkHeader_accepts plainHeader_header hs
  have hopened := opened_tracks storedA_decodes hz
  have hdata : (⟨plainHeader++storedA,fun _ => false⟩ : RawFile).content.drop s.dataoffset = storedA := by simp [hoff]
  have hfits := (zSeek_right_iff storedA_decodes (.inr rfl) hopened (zfRewind_tracks storedA_decodes hdata hopened) rfl).mp h 2
  have htotal : (⟨s.z,(lastEngine 6 [0x41]).init,0,false⟩ : ZFile ℕ).total 64 = 0 := total_opened 64 s.z
  rw [SeekFits,htotal] at hfits
  have hbad := hfits (by decide)
  revert hbad
  dsimp only
  decide

end Runs
end Blub.Stand
