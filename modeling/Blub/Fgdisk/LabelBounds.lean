import Blub.Fgdisk.Label
import Blub.Lib.CStr
import Blub.Lib.Cells

/-! The conversions of labels from `gpt.c`, with each access to their strings and buffers. A call yields `none` where the
source would read or write outside of them. -/
namespace Blub.Fgdisk
open Cells

section Code

/-- The unit at an index: the character it is taken for, and the next index. Behind a surrogate one more unit is read. -/
def utf16CharAt (s16 : List ℕ) (s16idx : ℕ) : Option (ℕ × ℕ) :=
  s16[s16idx]?.bind fun utfchar =>
    if utfchar &&& 0xf800 = 0xd800 then
      s16[s16idx+1]?.map fun c => ((utf16Char utfchar c).1,if (utf16Char utfchar c).2 then s16idx+2 else s16idx+1)
    else some (utfchar,s16idx+1)

/-- The loop of `utf16_to_utf8` over the units: the final index into the buffer, and the buffer. -/
def utf16Turns (s16 : List ℕ) (s16len s8len : ℕ) : ℕ → ℕ → ℕ → List UInt8 → Option (ℕ × List UInt8)
  | 0, _, _, _ => none
  | fuel+1, s16idx, s8idx, s8 =>
    if s16idx < s16len then
      (utf16CharAt s16 s16idx).bind fun (utfchar,s16idx) =>
        let out := (utf8Bytes utfchar).map UInt8.ofNat
        if out ≠ [] ∧ s8idx+out.length ≥ s8len then some (s8idx,s8)
        else (putAll s8 s8idx out).bind fun s8 => utf16Turns s16 s16len s8len fuel s16idx (s8idx+out.length) s8
    else some (s8idx,s8)

/-- `utf16_to_utf8`: the buffer `s8` when it returns. -/
def utf16ToUtf8Cells (s16 : List ℕ) (s8 : List UInt8) (s8len : ℕ) : Option (List UInt8) :=
  (pastMark 0 s16 (s16.length+1) 0).bind fun s16len =>
    (utf16Turns s16 s16len s8len (s16len+1) 0 0 s8).bind fun (s8idx,s8) => put s8 s8idx 0

/-- What an initial byte puts behind an incomplete character. -/
def utf8Pad (c utfbytes : ℕ) : List ℕ := if c &&& 0xc0 ≠ 0x80 ∧ utfbytes ≠ 0 then [0xfffd] else []

/-- The character and the number of its missing bytes behind one more byte. The counter of a stray byte is `~0`. -/
def utf8Next (c utfchar utfbytes : ℕ) : ℕ × ℕ :=
  if c &&& 0xc0 ≠ 0x80 then utf8Lead c
  else if utfbytes > 0 then ((utfchar <<< 6+(c &&& 0x3f))%2^32,utfbytes-1)
  else (utfchar,2^32-1)

/-- The loop of `utf8_to_utf16`: the buffer when it returns. -/
def utf8Turns (s8 : List UInt8) (s16len : ℕ) : ℕ → ℕ → ℕ → ℕ → ℕ → List ℕ → Option (List ℕ)
  | 0, _, _, _, _, _ => none
  | fuel+1, s8idx, utfchar, utfbytes, s16idx, s16 =>
    s8[s8idx]?.bind fun b =>
      let c := b.toNat
      let pad := utf8Pad c utfbytes
      (putAll s16 s16idx pad).bind fun s16 =>
        let s16idx := s16idx+pad.length
        if pad ≠ [] ∧ s16idx = s16len then put s16 (s16idx-1) 0
        else
          let (utfchar,utfbytes) := utf8Next c utfchar utfbytes
          if utfbytes = 0 then
            let units := utf16Units s16len s16idx utfchar
            (putAll s16 s16idx units).bind fun s16 =>
              let s16idx := s16idx+units.length
              if s16idx = s16len then put s16 (s16idx-1) 0
              else if c ≠ 0 then utf8Turns s8 s16len fuel (s8idx+1) utfchar utfbytes s16idx s16
              else some s16
          else if c ≠ 0 then utf8Turns s8 s16len fuel (s8idx+1) utfchar utfbytes s16idx s16
          else some s16

/-- `utf8_to_utf16`: the buffer `s16` when it returns. The length of the string is computed, and not used. -/
def utf8ToUtf16Cells (s8 : List UInt8) (s16 : List ℕ) (s16len : ℕ) : Option (List ℕ) :=
  (pastMark 0 s8 (s8.length+1) 0).bind fun _ => utf8Turns s8 s16len (s8.length+1) 0 0 0 0 s16

attribute [local grind =] utf16Turns utf8Turns

end Code

section Load
variable {m w : List UInt8} {u c : ℕ}

theorem utf16CharAt_eq (pre r : List ℕ) : utf16CharAt (pre ++ u :: c :: r) pre.length =
    some ((utf16Char u c).1,pre.length+if (utf16Char u c).2 then 2 else 1) := by
  have h₀ : (pre ++ u :: c :: r)[pre.length]? = some u := by simp
  have h₁ : (pre ++ u :: c :: r)[pre.length+1]? = some c := by simp
  rw [utf16CharAt,h₀,h₁,Option.bind_some]
  by_cases hs : u &&& 0xf800 = 0xd800
  · rw [if_pos hs,Option.map_some]
    cases (utf16Char u c).2 <;> rfl
  · rw [if_neg hs,utf16Char,if_neg hs]
    rfl

theorem utf16CharAt_zero (pre r : List ℕ) : utf16CharAt (pre ++ 0 :: r) pre.length = some (0,pre.length+1) := by
  simp [utf16CharAt]

theorem utf16Char_skips (h : (utf16Char u c).2 = true) : c ≠ 0 := by
  rintro rfl
  unfold utf16Char at h
  split_ifs at h with h₁ h₂
  simp at h₂

theorem putUtf8_lt {n : ℕ} {w' : List UInt8} (hw : w.length < n) (h : putUtf8 n w u = some w') : w'.length < n := by
  unfold putUtf8 at h
  dsimp only at h
  split_ifs at h with hend
  obtain rfl := Option.some.inj h
  rw [List.length_append]
  by_cases hnil : (utf8Bytes u).map UInt8.ofNat = []
  · rwa [hnil]
  · exact not_le.mp fun hle => hend ⟨hnil,hle⟩

/-- One turn of the loop. -/
theorem utf16Turns_succ {s16 : List ℕ} {s16len s16idx next : ℕ} (fuel : ℕ) (hlen : s16idx < s16len)
    (hchar : utf16CharAt s16 s16idx = some (u,next)) (hw : w.length < m.length) :
    utf16Turns s16 s16len m.length (fuel+1) s16idx w.length (overlay m w) =
      match putUtf8 m.length w u with
      | none => some (w.length,overlay m w)
      | some w' => utf16Turns s16 s16len m.length fuel next w'.length (overlay m w') := by
  rw [utf16Turns,if_pos hlen,hchar,Option.bind_some]
  dsimp only
  cases h : putUtf8 m.length w u with
  | none =>
    unfold putUtf8 at h
    dsimp only at h
    split_ifs at h with hend
    rw [if_pos hend]
  | some w' =>
    have hlt := putUtf8_lt hw h
    unfold putUtf8 at h
    dsimp only at h
    split_ifs at h with hend
    obtain rfl := Option.some.inj h
    rw [List.length_append] at hlt
    rw [if_neg hend,putAll_overlay hlt.le,Option.bind_some]
    dsimp only
    rw [List.length_append]

/-- The loop writes what it should write from the start of the buffer, and leaves room for the final 0. -/
theorem utf16Turns_eq {s16len : ℕ} (fuel : ℕ) {v : List ℕ} (hv : 0 ∉ v) (pre r : List ℕ)
    (hlen : s16len = pre.length+v.length+1) (hw : w.length < m.length) (hfuel : v.length+1 < fuel) :
    (utf16Loop m.length (v ++ [0]) w).length < m.length ∧
      utf16Turns (pre ++ (v ++ 0 :: r)) s16len m.length fuel pre.length w.length (overlay m w) =
        some ((utf16Loop m.length (v ++ [0]) w).length,overlay m (utf16Loop m.length (v ++ [0]) w)) := by
  induction fuel generalizing v pre w with
  | zero => omega
  | succ fuel ih =>
    cases v with
    | nil =>
      -- the terminator, behind which the loop ends
      obtain ⟨fuel,rfl⟩ : ∃ k, fuel = k+1 := ⟨fuel-1,by simp at hfuel; omega⟩
      rw [List.length_nil] at hlen
      rw [List.nil_append,List.nil_append,utf16Turns_succ _ (by omega) (utf16CharAt_zero pre r) hw,
        utf16Loop]
      have hzero : (utf16Char 0 0).1 = 0 := rfl
      rw [hzero]
      cases h : putUtf8 m.length w 0 with
      | none => exact ⟨hw,rfl⟩
      | some w' =>
        refine ⟨putUtf8_lt hw h,?_⟩
        dsimp only
        rw [utf16Turns,if_neg (by omega)]
        rfl
    | cons u v =>
      obtain ⟨c,t,t',hr,ht⟩ : ∃ c t t', v ++ 0 :: r = c :: t ∧ v ++ [0] = c :: t' := by
        cases v with
        | nil => exact ⟨0,r,[],rfl,rfl⟩
        | cons c v => exact ⟨c,v ++ 0 :: r,v ++ [0],rfl,rfl⟩
      have hv' : 0 ∉ v := fun h => hv (List.mem_cons_of_mem u h)
      rw [List.length_cons] at hfuel hlen
      rw [List.cons_append,List.cons_append,hr,ht,utf16Turns_succ _ (by omega) (utf16CharAt_eq pre t) hw,utf16Loop]
      cases h : putUtf8 m.length w (utf16Char u c).1 with
      | none => exact ⟨hw,rfl⟩
      | some w' =>
        have hw' := putUtf8_lt hw h
        dsimp only
        cases hskip : (utf16Char u c).2 with
        | true =>
          cases v with
          | nil => exact absurd (List.cons.inj hr).1.symm (utf16Char_skips hskip)
          | cons c' v =>
            obtain ⟨rfl,rfl⟩ := List.cons.inj hr
            obtain ⟨-,rfl⟩ := List.cons.inj ht
            have h' := @ih w' v (fun h => hv' (List.mem_cons_of_mem _ h)) (pre ++ [u,c']) (by simp at hlen ⊢; omega) hw'
              (by simp at hfuel; omega)
            simpa using h'
        | false =>
          have h' := @ih w' v hv' (pre ++ [u]) (by simp; omega) hw' (by omega)
          rw [hr,ht] at h'
          simpa using h'

/-- All that is written is the result and its 0, each byte once and from the start of the buffer. -/
def StaysInside (s16 : List ℕ) (s8 : List UInt8) : Prop :=
  ∃ out, out.length < s8.length ∧ utf16ToUtf8Cells s16 s8 s8.length = some (overlay s8 (out ++ [0]))

theorem utf16ToUtf8Cells_eq {v : List ℕ} (hv : 0 ∉ v) (r : List ℕ) (hm : m ≠ []) :
    (utf16Loop m.length (v ++ [0]) []).length < m.length ∧
      utf16ToUtf8Cells (v ++ 0 :: r) m m.length = some (overlay m (utf16Loop m.length (v ++ [0]) [] ++ [0])) := by
  have hscan := pastMark_found hv r (show v.length < (v ++ 0 :: r).length+1 by simp) []
  obtain ⟨hlt,hrun⟩ := utf16Turns_eq (m := m) (w := []) (v.length+2) hv [] r rfl (List.length_pos_of_ne_nil hm)
    (Nat.lt_succ_self _)
  simp only [List.nil_append,List.length_nil,Nat.zero_add,overlay_nil] at hscan hrun
  refine ⟨hlt,?_⟩
  rw [utf16ToUtf8Cells,hscan,Option.bind_some,hrun,Option.bind_some]
  exact put_overlay hlt 0

/-- What is in the buffer is what the function is for. -/
theorem utf16ToUtf8Cells_map (s16 : List ℕ) (s8 : List UInt8) (hs8 : s8 ≠ []) :
    utf16ToUtf8Cells s16 s8 s8.length = (utf16ToUtf8 s16 s8.length).map (overlay s8) := by
  by_cases hz : 0 ∈ s16
  · obtain ⟨v,r,rfl,hv⟩ := List.eq_append_cons_of_mem hz
    have htake : (v ++ 0 :: r).takeWhile (· ≠ 0) = v := by
      rw [List.takeWhile_append_of_pos fun u hu => by simpa using fun h : u = 0 => hv (h ▸ hu)]
      simp
    rw [(utf16ToUtf8Cells_eq hv r hs8).2,utf16ToUtf8,if_pos hz,htake,Option.map_some]
  · rw [utf16ToUtf8Cells,pastMark_none hz,utf16ToUtf8,if_neg hz]
    rfl

/-- A name is converted inside of its units and of the buffer exactly when one of its units is 0. -/
theorem staysInside_iff (s16 : List ℕ) (s8 : List UInt8) (hs8 : s8 ≠ []) : StaysInside s16 s8 ↔ 0 ∈ s16 := by
  constructor
  · rintro ⟨out,-,hrun⟩
    by_contra hz
    rw [utf16ToUtf8Cells_map s16 s8 hs8,utf16ToUtf8,if_neg hz] at hrun
    cases hrun
  · intro hz
    obtain ⟨v,r,rfl,hv⟩ := List.eq_append_cons_of_mem hz
    obtain ⟨hlt,hrun⟩ := utf16ToUtf8Cells_eq hv r hs8
    exact ⟨_,hlt,hrun⟩

/-- A name of 36 units, the first half of a pair of surrogates up to its last one, in the buffer of `show_one`. -/
theorem staysInside_surrogates :
    StaysInside (List.replicate 35 0xd800 ++ [0]) (List.replicate (nameUnits*3+1) 0xff) :=
  (staysInside_iff _ _ (by decide)).mpr (by decide)

/-- A name of 36 letters is read beyond its end. -/
theorem full_name_overrun : ¬StaysInside (List.replicate nameUnits 65) (List.replicate (nameUnits*3+1) 0xff) := by
  rintro ⟨out,-,hrun⟩
  have hnone : utf16ToUtf8 (List.replicate nameUnits 65) (List.replicate (nameUnits*3+1) (0xff : UInt8)).length = none :=
    if_neg (by decide)
  rw [utf16ToUtf8Cells_map _ _ (by decide),hnone] at hrun
  cases hrun

end Load

section Store
variable {m w : List ℕ} {n utfchar utfbytes : ℕ}

theorem utf8Loop_cons (b : UInt8) (s8 : List UInt8) : utf8Loop n (b :: s8) w utfchar utfbytes =
    if utf8Pad b.toNat utfbytes ≠ [] ∧ (w ++ utf8Pad b.toNat utfbytes).length = n then
      (w ++ utf8Pad b.toNat utfbytes).dropLast ++ [0]
    else
      let w := w ++ utf8Pad b.toNat utfbytes
      let (utfchar,utfbytes) := utf8Next b.toNat utfchar utfbytes
      if utfbytes = 0 then
        let w := w ++ utf16Units n w.length utfchar
        if w.length = n then w.dropLast ++ [0] else if b.toNat = 0 then w else utf8Loop n s8 w utfchar utfbytes
      else utf8Loop n s8 w utfchar utfbytes := by
  rw [utf8Loop,utf8Pad,utf8Next]
  dsimp only
  by_cases hlead : b.toNat &&& 0xc0 ≠ 0x80
  · by_cases hinc : utfbytes ≠ 0
    · simp [hlead,hinc]
    · simp [hlead,hinc]
  · simp [hlead]

/-- A complete character fits in, and takes one unit if it fills the buffer. -/
theorem utf16Units_fits (n k utfchar : ℕ) :
    (∃ u, utf16Units n k utfchar = [u]) ∨ k+(utf16Units n k utfchar).length < n := by
  unfold utf16Units
  by_cases hend : utfchar ≥ 0x10000 ∧ k+2 ≥ n
  · simp [hend]
  · dsimp only
    rw [if_neg hend]
    split_ifs with hbig
    · exact Or.inr (not_le.mp fun h => hend ⟨hbig,h⟩)
    · exact Or.inl ⟨_,rfl⟩

theorem utf8Pad_cases (c utfbytes : ℕ) : utf8Pad c utfbytes = [] ∨ utf8Pad c utfbytes = [0xfffd] := by
  unfold utf8Pad
  split_ifs
  · exact Or.inr rfl
  · exact Or.inl rfl

/-- A full buffer ends with a 0 that takes the place of the last unit. -/
theorem full_end {u : ℕ} (h : (w ++ [u]).length = n) (hn : n = m.length) : (w ++ [u]).dropLast ++ [0] = w ++ [0] ∧
    w.length < m.length ∧ put (overlay m (w ++ [u])) (w.length+[u].length-1) 0 = some (overlay m (w ++ [0])) := by
  have hlt : w.length < m.length := by
    rw [List.length_append,List.length_singleton] at h
    omega
  refine ⟨by rw [List.dropLast_concat],hlt,?_⟩
  rw [List.length_singleton,Nat.add_sub_cancel]
  exact put_overlay_last hlt 0

/-- The loop writes what it should write from the start of the buffer, with a 0 at its end. -/
theorem utf8Turns_eq (fuel : ℕ) {suf : List UInt8} (hs : 0 ∉ suf) (pre : List UInt8) (hw : w.length < m.length)
    (hfuel : suf.length < fuel) : ∃ units, units.length < m.length ∧
      utf8Loop m.length (suf ++ [0]) w utfchar utfbytes = units ++ [0] ∧
      utf8Turns (pre ++ (suf ++ [0])) m.length fuel pre.length utfchar utfbytes w.length (overlay m w) =
        some (overlay m (units ++ [0])) := by
  induction fuel generalizing suf pre w utfchar utfbytes with
  | zero => omega
  | succ fuel ih =>
    obtain ⟨b,r,hr,hgo⟩ : ∃ b r, suf ++ [0] = b :: r ∧ (b.toNat ≠ 0 → ∀ (w : List ℕ) utfchar utfbytes,
        w.length < m.length → ∃ units, units.length < m.length ∧ utf8Loop m.length r w utfchar utfbytes = units ++ [0] ∧
          utf8Turns (pre ++ b :: r) m.length fuel (pre.length+1) utfchar utfbytes w.length (overlay m w) =
            some (overlay m (units ++ [0]))) := by
      cases suf with
      | nil => exact ⟨0,[],rfl,fun h => absurd rfl h⟩
      | cons b suf =>
        refine ⟨b,suf ++ [0],rfl,fun _ w utfchar utfbytes hw => ?_⟩
        have h := @ih w utfchar utfbytes suf (fun h => hs (List.mem_cons_of_mem b h)) (pre ++ [b]) hw
          (Nat.lt_of_succ_lt_succ hfuel)
        simpa using h
    have hread : (pre ++ b :: r)[pre.length]? = some b := by simp
    rw [hr,utf8Loop_cons,utf8Turns,hread,Option.bind_some]
    dsimp only
    have hpad := utf8Pad_cases b.toNat utfbytes
    generalize utf8Pad b.toNat utfbytes = pad at hpad
    have hfits : w.length+pad.length ≤ m.length := by
      rcases hpad with rfl | rfl
      · exact hw.le
      · exact hw
    rw [putAll_overlay hfits,Option.bind_some,← List.length_append]
    by_cases hfull : pad ≠ [] ∧ (w ++ pad).length = m.length
    · obtain rfl := hpad.resolve_left hfull.1
      obtain ⟨hlist,hlt,hput⟩ := full_end hfull.2 rfl
      rw [if_pos hfull,if_pos hfull,List.length_append]
      exact ⟨w,hlt,hlist,hput⟩
    rw [if_neg hfull,if_neg hfull]
    have hw' : (w ++ pad).length < m.length := by
      rcases hpad with rfl | rfl
      · rwa [List.append_nil]
      · rw [List.length_append] at hfull ⊢
        exact lt_of_le_of_ne hfits fun h => hfull ⟨by simp,h⟩
    generalize w ++ pad = w' at hw'
    have hnext : b.toNat = 0 → utf8Next b.toNat utfchar utfbytes = (0,0) := by
      intro h
      rw [h]
      rfl
    generalize utf8Next b.toNat utfchar utfbytes = next at hnext
    obtain ⟨u,k⟩ := next
    dsimp only
    by_cases hk : k = 0
    · rw [if_pos hk,if_pos hk]
      have hunits := utf16Units_fits m.length w'.length u
      have hzero : b.toNat = 0 → utf16Units m.length w'.length u = [0] := by
        intro h
        obtain ⟨rfl,-⟩ := Prod.mk.inj (hnext h)
        simp [utf16Units]
      generalize utf16Units m.length w'.length u = l at hunits hzero
      have hfits' : w'.length+l.length ≤ m.length := by
        rcases hunits with ⟨x,rfl⟩ | h
        · exact hw'
        · exact h.le
      rw [putAll_overlay hfits',Option.bind_some,← List.length_append]
      by_cases hfull' : (w' ++ l).length = m.length
      · obtain ⟨x,rfl⟩ : ∃ x, l = [x] := by
          refine hunits.resolve_right fun h => ?_
          rw [List.length_append] at hfull'
          omega
        obtain ⟨hlist,hlt,hput⟩ := full_end hfull' rfl
        rw [if_pos hfull',if_pos hfull',List.length_append]
        exact ⟨w',hlt,hlist,hput⟩
      · rw [if_neg hfull',if_neg hfull']
        by_cases hb : b.toNat = 0
        · obtain rfl := hzero hb
          rw [if_pos hb,if_neg (not_not.mpr hb)]
          exact ⟨w',hw',rfl,rfl⟩
        · rw [if_neg hb,if_pos hb]
          refine hgo hb _ u k (lt_of_le_of_ne ?_ hfull')
          rwa [List.length_append]
    · have hb : b.toNat ≠ 0 := fun h => hk (Prod.mk.inj (hnext h)).2
      rw [if_neg hk,if_neg hk,if_pos hb]
      exact hgo hb w' u k hw'

/-- A string in its buffer is converted without an access behind its 0 or outside of the units. They are written from
the first one on, and the last one that is written is 0. -/
theorem utf8ToUtf16_inside (str : CStr) (s16 : List ℕ) (hs16 : s16 ≠ []) : ∃ units, units.length < s16.length ∧
    utf8ToUtf16 str.bytes s16.length = units ++ [0] ∧
    utf8ToUtf16Cells (str.bytes ++ [0]) s16 s16.length = some (overlay s16 (units ++ [0])) := by
  obtain ⟨units,hlt,hlist,hrun⟩ := @utf8Turns_eq s16 [] 0 0
    ((str.bytes ++ [0]).length+1) str.bytes str.nonzero [] (List.length_pos_of_ne_nil hs16) (by simp)
  have hscan := pastMark_found str.nonzero [] (show str.bytes.length < (str.bytes ++ [0]).length+1 by simp) []
  refine ⟨units,hlt,hlist,?_⟩
  simp only [List.nil_append,List.length_nil,overlay_nil] at hscan hrun
  rw [utf8ToUtf16Cells,hscan,Option.bind_some,hrun]

/-- A stray byte, a character that breaks off and one that needs two units, with room for three. -/
theorem utf8ToUtf16_inside_stray :
    utf8ToUtf16Cells ([0x80,0xe2,0x82,0xf0,0x9f,0x98,0x80] ++ [0]) [1,1,1] 3 = some [0xfffd,0xfffd,0] := by
  obtain ⟨units,-,hlist,hrun⟩ :=
    utf8ToUtf16_inside ⟨[0x80,0xe2,0x82,0xf0,0x9f,0x98,0x80],by decide⟩ [1,1,1] (List.cons_ne_nil _ _)
  refine hrun.trans ?_
  rw [← hlist]
  decide

end Store

end Blub.Fgdisk
