import Blub.Fgdisk.Add

/-! Partition labels: `utf16_to_utf8`, and what it makes of a label that `utf8_to_utf16` has stored. -/
namespace Blub.Fgdisk

section Utf

/-- A code unit followed by `c`: the character it is taken for, and whether `c` is skipped. -/
def utf16Char (utfchar c : ℕ) : ℕ × Bool :=
  if utfchar &&& 0xf800 = 0xd800 then
    if utfchar &&& 0x400 ≠ 0 ∨ c &&& 0xfc00 ≠ 0xdc00 then (0xfffd,false) else (utfchar,true)
  else (utfchar,false)

def utf8Bytes (utfchar : ℕ) : List ℕ :=
  if utfchar < 0x80 then [utfchar]
  else if utfchar < 0x800 then [0xc0 ||| utfchar >>> 6,0x80 ||| (utfchar &&& 0x3f)]
  else if utfchar < 0x10000 then
    [0xe0 ||| utfchar >>> 12,0x80 ||| (utfchar >>> 6 &&& 0x3f),0x80 ||| (utfchar &&& 0x3f)]
  else if utfchar < 0x200000 then
    [0xf0 ||| utfchar >>> 18,0x80 ||| (utfchar >>> 12 &&& 0x3f),0x80 ||| (utfchar >>> 6 &&& 0x3f),
      0x80 ||| (utfchar &&& 0x3f)]
  else []

/-- The bytes of a character go to the buffer, where they have to leave room for the final 0. -/
def putUtf8 (s8len : ℕ) (s8 : List UInt8) (utfchar : ℕ) : Option (List UInt8) :=
  let out := (utf8Bytes utfchar).map UInt8.ofNat
  if out ≠ [] ∧ s8.length+out.length ≥ s8len then none else some (s8 ++ out)

/-- The loop of `utf16_to_utf8` over the units up to the terminator, `s8` being the bytes written so far. -/
def utf16Loop (s8len : ℕ) : List ℕ → List UInt8 → List UInt8
  | [], s8 => s8
  | [u], s8 => (putUtf8 s8len s8 (utf16Char u 0).1).getD s8
  | u :: c :: s16, s8 =>
    match putUtf8 s8len s8 (utf16Char u c).1 with
    | none => s8
    | some s8 => if (utf16Char u c).2 then utf16Loop s8len s16 s8 else utf16Loop s8len (c :: s16) s8

/-- `utf16_to_utf8`: the bytes written to the buffer. A name without a terminator is read beyond its end. -/
def utf16ToUtf8 (s16 : List ℕ) (s8len : ℕ) : Option (List UInt8) :=
  if 0 ∈ s16 then some (utf16Loop s8len (s16.takeWhile (· ≠ 0) ++ [0]) [] ++ [0]) else none

/-- The bytes of a buffer as a string. -/
def cString (buf : List UInt8) : List UInt8 := buf.takeWhile (· ≠ 0)

attribute [local grind =] utf16Loop

end Utf

section Masks

/-- What marks a byte as one that follows another. -/
theorem follow_byte {x : ℕ} (h : x < 64) : x+0x80 &&& 0xc0 = 0x80 ∧ x+0x80 &&& 0x3f = x := by
  have h₁ := and_mask (x+0x80) 2 6
  have h₂ := Nat.and_two_pow_sub_one_eq_mod (x+0x80) 6
  norm_num at h₁ h₂
  omega

/-- The lead bytes of one, two, three and four. -/
theorem lead_byte₁ {x : ℕ} (h : x < 128) : x &&& 0xc0 ≠ 0x80 ∧ utf8Lead x = (x,0) := by
  have h₁ := and_mask x 2 6
  have h₂ := and_mask x 5 3
  have h₃ := and_mask x 4 4
  have h₄ := and_mask x 3 5
  have h₅ := Nat.and_two_pow_sub_one_eq_mod x 7
  norm_num at h₁ h₂ h₃ h₄ h₅
  unfold utf8Lead
  rw [if_neg (by omega),if_neg (by omega),if_neg (by omega)]
  exact ⟨by omega,by rw [h₅]; congr 1; omega⟩

theorem lead_byte₂ {x : ℕ} (h : x < 32) : x+0xc0 &&& 0xc0 ≠ 0x80 ∧ utf8Lead (x+0xc0) = (x,1) := by
  have h₁ := and_mask (x+0xc0) 2 6
  have h₂ := and_mask (x+0xc0) 5 3
  have h₃ := and_mask (x+0xc0) 4 4
  have h₄ := and_mask (x+0xc0) 3 5
  have h₅ := Nat.and_two_pow_sub_one_eq_mod (x+0xc0) 5
  norm_num at h₁ h₂ h₃ h₄ h₅
  unfold utf8Lead
  rw [if_neg (by omega),if_neg (by omega),if_pos (by omega)]
  exact ⟨by omega,by rw [h₅]; congr 1; omega⟩

theorem lead_byte₃ {x : ℕ} (h : x < 16) : x+0xe0 &&& 0xc0 ≠ 0x80 ∧ utf8Lead (x+0xe0) = (x,2) := by
  have h₁ := and_mask (x+0xe0) 2 6
  have h₂ := and_mask (x+0xe0) 5 3
  have h₃ := and_mask (x+0xe0) 4 4
  have h₅ := Nat.and_two_pow_sub_one_eq_mod (x+0xe0) 4
  norm_num at h₁ h₂ h₃ h₅
  unfold utf8Lead
  rw [if_neg (by omega),if_pos (by omega)]
  exact ⟨by omega,by rw [h₅]; congr 1; omega⟩

theorem lead_byte₄ {x : ℕ} (h : x < 8) : x+0xf0 &&& 0xc0 ≠ 0x80 ∧ utf8Lead (x+0xf0) = (x,3) := by
  have h₁ := and_mask (x+0xf0) 2 6
  have h₂ := and_mask (x+0xf0) 5 3
  have h₅ := Nat.and_two_pow_sub_one_eq_mod (x+0xf0) 3
  norm_num at h₁ h₂ h₅
  unfold utf8Lead
  rw [if_pos (by omega)]
  exact ⟨by omega,by rw [h₅]; congr 1; omega⟩

end Masks

section Store
variable {n u k x : ℕ} {b : UInt8} {l : List UInt8} {s16 : List ℕ}

/-- The code units of a character. -/
def charUnits (c : ℕ) : List ℕ :=
  if c < 0x10000 then [c] else [0xd800+(c/1024-0x40),0xdc00+c%1024]

theorem length_charUnits (c : ℕ) : (charUnits c).length = if c < 0x10000 then 1 else 2 := by
  unfold charUnits
  split_ifs <;> rfl

theorem utf16Units_eq (n : ℕ) (s16 : List ℕ) {c : ℕ} (hc : c < 0x110000) (hroom : c < 0x10000 ∨ s16.length+2 < n) :
    utf16Units n s16.length c = charUnits c := by
  unfold utf16Units charUnits
  dsimp only
  rw [if_neg (show ¬ (c ≥ 0x10000 ∧ s16.length+2 ≥ n) by omega)]
  by_cases h : c < 0x10000
  · rw [if_neg (by omega),if_pos h,Nat.mod_eq_of_lt (show c < 2^16 by omega)]
  · rw [if_pos (by omega),if_neg h]
    have hshift : c >>> 10 = c/1024 := Nat.shiftRight_eq_div_pow c 10
    have hand : c &&& 0x3ff = c%1024 := Nat.and_two_pow_sub_one_eq_mod c 10
    have hhi : 0xd800 ||| (c/1024-0x40) = 0xd800+(c/1024-0x40) := or_mask 54 (i := 10) (by omega)
    have hlo : 0xdc00 ||| c%1024 = 0xdc00+c%1024 := or_mask 55 (i := 10) (by omega)
    rw [hshift,hand,hhi,hlo,Nat.mod_eq_of_lt (by omega),Nat.mod_eq_of_lt (by omega)]

theorem utf8Loop_lead (hb : b.toNat &&& 0xc0 ≠ 0x80) (hl : utf8Lead b.toNat = (x,k+1)) :
    utf8Loop n (b :: l) s16 u 0 = utf8Loop n l s16 x (k+1) := by
  rw [utf8Loop]
  simp [hb,hl]

theorem utf8Loop_follow (hb : b.toNat = x+0x80) (hx : x < 64) (hu : u*64+x < 2^32) :
    utf8Loop n (b :: l) s16 u (k+2) = utf8Loop n l s16 (u*64+x) (k+1) := by
  obtain ⟨h₁,h₂⟩ := follow_byte hx
  rw [utf8Loop]
  have hmod : (u*64+x)%4294967296 = u*64+x := Nat.mod_eq_of_lt hu
  simp [hb,h₁,h₂,Nat.shiftLeft_eq,hmod]

theorem utf16Units_room {c : ℕ} (hc : c < 0x110000) (hroom : s16.length+(charUnits c).length < n) :
    utf16Units n s16.length c = charUnits c := by
  rw [length_charUnits] at hroom
  refine utf16Units_eq n s16 hc ?_
  by_cases h : c < 0x10000
  · exact .inl h
  · rw [if_neg h] at hroom
    exact .inr hroom

/-- The last byte of a character that leaves room for the terminator. -/
theorem utf8Loop_last (hb : b.toNat = x+0x80) (hx : x < 64) (hu : u*64+x < 0x110000)
    (hroom : s16.length+(charUnits (u*64+x)).length < n) :
    utf8Loop n (b :: l) s16 u 1 = utf8Loop n l (s16 ++ charUnits (u*64+x)) (u*64+x) 0 := by
  obtain ⟨h₁,h₂⟩ := follow_byte hx
  have hmod : (u*64+x)%4294967296 = u*64+x := Nat.mod_eq_of_lt (by omega)
  rw [utf8Loop]
  simp [hb,h₁,h₂,Nat.shiftLeft_eq,hmod,utf16Units_room hu hroom]
  omega

theorem utf8Loop_ascii (hb : b.toNat = x) (hx : x < 128) (h0 : x ≠ 0) (hroom : s16.length+1 < n) :
    utf8Loop n (b :: l) s16 u 0 = utf8Loop n l (s16 ++ [x]) x 0 := by
  obtain ⟨h₁,h₂⟩ := lead_byte₁ hx
  have hunits := utf16Units_eq n s16 (c := x) (by omega) (.inl (by omega))
  rw [charUnits,if_pos (by omega)] at hunits
  rw [utf8Loop]
  simp [hb,h₁,h₂,hunits,h0]
  omega

theorem utf8Loop_end : utf8Loop n [0] s16 u 0 = s16 ++ [0] := by
  obtain ⟨h₁,h₂⟩ := lead_byte₁ (x := 0) (by omega)
  have hunits := utf16Units_eq n s16 (c := 0) (by omega) (.inl (by omega))
  rw [charUnits,if_pos (by omega)] at hunits
  rw [utf8Loop]
  simp [h₂,hunits]

/-- A character is stored as its code units. -/
theorem utf8Loop_char (c : Char) (h0 : c.toNat ≠ 0) (hroom : s16.length+(charUnits c.toNat).length < n) :
    utf8Loop n (String.utf8EncodeChar c ++ l) s16 u 0 = utf8Loop n l (s16 ++ charUnits c.toNat) c.toNat 0 := by
  have hc : c.toNat < 0x110000 := by
    have := c.valid
    unfold UInt32.isValidChar Nat.isValidChar at this
    unfold Char.toNat
    omega
  generalize hv : c.toNat = v at *
  have hval : c.val.toNat = v := hv
  unfold String.utf8EncodeChar
  rw [hval]
  dsimp only
  by_cases h₁ : v ≤ 0x7f
  · have hunits : charUnits v = [v] := if_pos (by omega)
    rw [if_pos h₁,hunits]
    exact utf8Loop_ascii (by rw [UInt8.toNat_ofNat']; omega) (by omega) h0 (by rw [hunits] at hroom; exact hroom)
  rw [if_neg h₁]
  by_cases h₂ : v ≤ 0x7ff
  · obtain ⟨hlead,hu⟩ := lead_byte₂ (x := v/64%32) (by omega)
    have hb : (UInt8.ofNat (v/64%32+0xc0)).toNat = v/64%32+0xc0 := by rw [UInt8.toNat_ofNat']; omega
    have hsum : v/64%32*64+v%64 = v := by omega
    rw [if_pos h₂,List.cons_append,utf8Loop_lead (by rwa [hb]) (by rwa [hb]),List.cons_append,
      utf8Loop_last (x := v%64) (by rw [UInt8.toNat_ofNat']; omega) (by omega) (by omega) (by rwa [hsum]),hsum]
    rfl
  rw [if_neg h₂]
  by_cases h₃ : v ≤ 0xffff
  · obtain ⟨hlead,hu⟩ := lead_byte₃ (x := v/4096%16) (by omega)
    have hb : (UInt8.ofNat (v/4096%16+0xe0)).toNat = v/4096%16+0xe0 := by rw [UInt8.toNat_ofNat']; omega
    have hsum : (v/4096%16*64+v/64%64)*64+v%64 = v := by omega
    rw [if_pos h₃,List.cons_append,utf8Loop_lead (by rwa [hb]) (by rwa [hb]),List.cons_append,
      utf8Loop_follow (x := v/64%64) (by rw [UInt8.toNat_ofNat']; omega) (by omega) (by omega),List.cons_append,
      utf8Loop_last (x := v%64) (by rw [UInt8.toNat_ofNat']; omega) (by omega) (by omega) (by rwa [hsum]),hsum]
    rfl
  · obtain ⟨hlead,hu⟩ := lead_byte₄ (x := v/262144%8) (by omega)
    have hb : (UInt8.ofNat (v/262144%8+0xf0)).toNat = v/262144%8+0xf0 := by rw [UInt8.toNat_ofNat']; omega
    have hsum : ((v/262144%8*64+v/4096%64)*64+v/64%64)*64+v%64 = v := by omega
    rw [if_neg h₃,List.cons_append,utf8Loop_lead (by rwa [hb]) (by rwa [hb]),List.cons_append,
      utf8Loop_follow (x := v/4096%64) (by rw [UInt8.toNat_ofNat']; omega) (by omega) (by omega),List.cons_append,
      utf8Loop_follow (x := v/64%64) (by rw [UInt8.toNat_ofNat']; omega) (by omega) (by omega),List.cons_append,
      utf8Loop_last (x := v%64) (by rw [UInt8.toNat_ofNat']; omega) (by omega) (by omega) (by rwa [hsum]),hsum]
    rfl

/-- A string is stored as its code units and the terminator. -/
theorem utf8ToUtf16_chars {s : List Char} (h0 : '\x00' ∉ s)
    (hlen : (s.flatMap fun c => charUnits c.toNat).length < n) :
    utf8ToUtf16 (s.flatMap String.utf8EncodeChar) n = s.flatMap (fun c => charUnits c.toNat) ++ [0] := by
  have hrun : ∀ (s : List Char) (s16 : List ℕ) u, '\x00' ∉ s →
      s16.length+(s.flatMap fun c => charUnits c.toNat).length < n →
      utf8Loop n (s.flatMap String.utf8EncodeChar ++ [0]) s16 u 0 = s16 ++ s.flatMap (fun c => charUnits c.toNat) ++ [0] := by
    intro s
    induction s with
    | nil =>
      intro s16 u _ _
      rw [List.flatMap_nil,List.flatMap_nil,List.append_nil]
      exact utf8Loop_end
    | cons c s ih =>
      intro s16 u h0 hlen
      rw [List.flatMap_cons,List.length_append] at hlen
      have hc : c.toNat ≠ 0 := fun h => h0 (List.mem_cons.mpr (.inl (Char.toNat_inj.mp h.symm)))
      rw [List.flatMap_cons,List.append_assoc,utf8Loop_char c hc (by omega),
        ih _ _ (fun h => h0 (List.mem_cons_of_mem c h)) (by rw [List.length_append]; omega),List.flatMap_cons,
        List.append_assoc s16]
  exact hrun s [] 0 h0 (by simpa using hlen)

end Store

section Load
variable {n u : ℕ} {s8 : List UInt8}

theorem utf16Char_bmp {c : ℕ} (hu : u < 0x10000) (hs : u < 0xd800 ∨ 0xdfff < u) : utf16Char u c = (u,false) := by
  have h := and_mask u 5 11
  norm_num at h
  exact if_neg (by omega)

theorem utf16Char_pair {hi lo : ℕ} (hhi : hi < 1024) (hlo : lo < 1024) :
    utf16Char (0xd800+hi) (0xdc00+lo) = (0xd800+hi,true) := by
  have h₁ := and_mask (0xd800+hi) 5 11
  have h₂ := and_mask (0xd800+hi) 1 10
  have h₃ := and_mask (0xdc00+lo) 6 10
  norm_num at h₁ h₂ h₃
  unfold utf16Char
  rw [if_pos (by omega),if_neg (by omega)]

/-- The bytes of a character of one unit are its encoding. -/
theorem utf8Bytes_char (c : Char) (hc : c.toNat < 0x10000) :
    (utf8Bytes c.toNat).map UInt8.ofNat = String.utf8EncodeChar c := by
  generalize hv : c.toNat = v at *
  have hval : c.val.toNat = v := hv
  have h₀ : v &&& 0x3f = v%64 := Nat.and_two_pow_sub_one_eq_mod v 6
  have h₆ : v >>> 6 = v/64 := Nat.shiftRight_eq_div_pow v 6
  have h₁₂ : v >>> 12 = v/4096 := Nat.shiftRight_eq_div_pow v 12
  have hmid : v/64 &&& 0x3f = v/64%64 := Nat.and_two_pow_sub_one_eq_mod (v/64) 6
  have hfollow : ∀ x < 64, 0x80 ||| x = x+0x80 := fun x hx => (or_mask 2 (i := 6) hx).trans (Nat.add_comm _ _)
  unfold String.utf8EncodeChar utf8Bytes
  rw [hval]
  dsimp only
  by_cases h₁ : v ≤ 0x7f
  · rw [if_pos (by omega),if_pos h₁]
    rfl
  rw [if_neg (by omega),if_neg h₁]
  by_cases h₂ : v ≤ 0x7ff
  · have hlead : 0xc0 ||| v/64 = v/64%32+0xc0 := (or_mask 6 (i := 5) (by omega)).trans (by omega)
    rw [if_pos (by omega),if_pos h₂,h₀,h₆,hlead,hfollow _ (by omega)]
    rfl
  · have hlead : 0xe0 ||| v/4096 = v/4096%16+0xe0 := (or_mask 14 (i := 4) (by omega)).trans (by omega)
    rw [if_neg (by omega),if_neg h₂,if_pos hc,if_pos (by omega),h₀,h₆,h₁₂,hmid,hlead,hfollow _ (by omega),
      hfollow _ (by omega)]
    rfl

theorem length_utf8Bytes (hu : u < 0x10000) : 0 < (utf8Bytes u).length ∧ (utf8Bytes u).length ≤ 3 := by
  unfold utf8Bytes
  rw [if_pos hu]
  split_ifs <;> simp

theorem putUtf8_room (hroom : s8.length+(utf8Bytes u).length < n) :
    putUtf8 n s8 u = some (s8 ++ (utf8Bytes u).map UInt8.ofNat) := by
  unfold putUtf8
  rw [if_neg]
  rw [List.length_map]
  omega

theorem putUtf8_take {s8' : List UInt8} (h : putUtf8 n s8 u = some s8') : s8 <+: s8' := by
  unfold putUtf8 at h
  dsimp only at h
  split_ifs at h
  exact ⟨_,Option.some.inj h⟩

/-- Bytes that have been written stay. -/
theorem utf16Loop_prefix (n : ℕ) (s16 : List ℕ) (s8 : List UInt8) : s8 <+: utf16Loop n s16 s8 := by
  fun_induction utf16Loop n s16 s8 with
  | case1 => exact List.prefix_rfl
  | case2 u s8 =>
    cases h : putUtf8 n s8 (utf16Char u 0).1 with
    | none => exact List.prefix_rfl
    | some s8' => exact putUtf8_take h
  | case3 => exact List.prefix_rfl
  | case4 _ _ _ _ _ h _ ih => exact (putUtf8_take h).trans ih
  | case5 _ _ _ _ _ h _ ih => exact (putUtf8_take h).trans ih

/-- A unit that is no surrogate gives its bytes. -/
theorem utf16Loop_bmp {r : List ℕ} (hr : r ≠ []) (hu : u < 0x10000) (hs : u < 0xd800 ∨ 0xdfff < u)
    (hroom : s8.length+(utf8Bytes u).length < n) :
    utf16Loop n (u :: r) s8 = utf16Loop n r (s8 ++ (utf8Bytes u).map UInt8.ofNat) := by
  cases r with
  | nil => exact absurd rfl hr
  | cons c s16 =>
    rw [utf16Loop,utf16Char_bmp hu hs]
    dsimp only
    rw [putUtf8_room hroom]
    rfl

theorem utf16Loop_end (hroom : s8.length+1 < n) : utf16Loop n [0] s8 = s8 ++ [0] := by
  have hput : putUtf8 n s8 0 = some _ := putUtf8_room hroom
  rw [utf16Loop,utf16Char_bmp (by norm_num) (.inl (by norm_num)),hput]
  rfl

/-- A pair of surrogates gives the three bytes of the first of them. -/
theorem utf16Loop_pair {hi lo : ℕ} {r : List ℕ} (hhi : hi < 1024) (hlo : lo < 1024) (hroom : s8.length+3 < n) :
    utf16Loop n ((0xd800+hi) :: (0xdc00+lo) :: r) s8 =
      utf16Loop n r (s8 ++ (utf8Bytes (0xd800+hi)).map UInt8.ofNat) := by
  have hlen := (length_utf8Bytes (u := 0xd800+hi) (by omega)).2
  rw [utf16Loop,utf16Char_pair hhi hlo]
  dsimp only
  rw [putUtf8_room (by omega)]
  rfl

theorem utf8Bytes_surrogate (hi : ℕ) (hhi : hi < 1024) : ∃ l, (utf8Bytes (0xd800+hi)).map UInt8.ofNat = 0xed :: l := by
  have h₁₂ : (0xd800+hi) >>> 12 = 13 := by
    rw [Nat.shiftRight_eq_div_pow]
    omega
  unfold utf8Bytes
  rw [if_neg (by omega),if_neg (by omega),if_pos (by omega),h₁₂]
  exact ⟨_,rfl⟩

theorem utf8EncodeChar_nonzero {c : Char} (h0 : c.toNat ≠ 0) : ∀ b ∈ String.utf8EncodeChar c, b ≠ 0 := by
  have hne : ∀ x : ℕ, 0 < x → x < 256 → UInt8.ofNat x ≠ 0 := fun x hx hlt h => by
    have := congrArg UInt8.toNat h
    rw [UInt8.toNat_ofNat',Nat.mod_eq_of_lt hlt] at this
    exact absurd this (by simpa using hx.ne')
  generalize hv : c.toNat = v at *
  have hval : c.val.toNat = v := hv
  unfold String.utf8EncodeChar
  rw [hval]
  dsimp only
  split_ifs <;> simp only [List.mem_cons,List.not_mem_nil,or_false,forall_eq_or_imp,forall_eq]
  · exact hne v (by omega) (by omega)
  · exact ⟨hne _ (by omega) (by omega),hne _ (by omega) (by omega)⟩
  · exact ⟨hne _ (by omega) (by omega),hne _ (by omega) (by omega),hne _ (by omega) (by omega)⟩
  · exact ⟨hne _ (by omega) (by omega),hne _ (by omega) (by omega),hne _ (by omega) (by omega),
      hne _ (by omega) (by omega)⟩

/-- The encoding of a character of two units starts with a byte that no character of one unit has. -/
theorem utf8EncodeChar_astral {c : Char} (hc : 0x10000 ≤ c.toNat) : ∃ b l, String.utf8EncodeChar c = b :: l ∧ b ≠ 0xed := by
  generalize hv : c.toNat = v at *
  have hval : c.val.toNat = v := hv
  unfold String.utf8EncodeChar
  rw [hval]
  dsimp only
  rw [if_neg (by omega),if_neg (by omega),if_neg (by omega)]
  refine ⟨_,_,rfl,fun h => ?_⟩
  have := congrArg UInt8.toNat h
  rw [UInt8.toNat_ofNat'] at this
  change _ = 237 at this
  omega

end Load

section Label
variable {n : ℕ} {s : List Char}

/-- The bytes of a label, and the number of code units it takes. -/
def labelBytes (s : List Char) : List UInt8 := s.flatMap String.utf8EncodeChar
def labelUnits (s : List Char) : ℕ := (s.map fun c => if c.toNat < 0x10000 then 1 else 2).sum

/-- A label stored into a name and read back from there; `rest` is what the name has held behind it. -/
def LabelRoundTrips (s : List Char) (rest : List ℕ) (s8len : ℕ) : Prop :=
  (utf16ToUtf8 (utf8ToUtf16 (labelBytes s) nameUnits ++ rest) s8len).map cString = some (labelBytes s)

theorem length_flatMap_charUnits (s : List Char) : (s.flatMap fun c => charUnits c.toNat).length = labelUnits s := by
  induction s with
  | nil => rfl
  | cons c s ih =>
    rw [List.flatMap_cons,List.length_append,ih,length_charUnits]
    rfl

theorem charUnits_nonzero {c : ℕ} (hc : c ≠ 0) : ∀ u ∈ charUnits c, u ≠ 0 := by
  intro u hu
  unfold charUnits at hu
  split_ifs at hu <;> simp at hu <;> omega

theorem toNat_ne_zero {c : Char} (h0 : '\x00' ∉ s) (hc : c ∈ s) : c.toNat ≠ 0 := by
  intro h
  have hzero : c = '\x00' := Char.toNat_inj.mp h
  exact h0 (hzero ▸ hc)

theorem labelBytes_nonzero (h0 : '\x00' ∉ s) : ∀ b ∈ labelBytes s, b ≠ 0 := by
  intro b hb
  obtain ⟨c,hc,hb⟩ := List.mem_flatMap.mp hb
  exact utf8EncodeChar_nonzero (toNat_ne_zero h0 hc) b hb

/-- Reading characters of one unit each. -/
theorem utf16Loop_chars {r : List ℕ} (hr : r ≠ []) (hs : ∀ c ∈ s, c.toNat < 0x10000) (s8 : List UInt8)
    (hroom : s8.length+3*labelUnits s < n) :
    utf16Loop n (s.flatMap (fun c => charUnits c.toNat) ++ r) s8 = utf16Loop n r (s8 ++ labelBytes s) := by
  induction s generalizing s8 with
  | nil => rw [labelBytes,List.flatMap_nil,List.flatMap_nil,List.append_nil,List.nil_append]
  | cons c s ih =>
    have hc := hs c List.mem_cons_self
    have hvalid : c.toNat < 0xd800 ∨ 0xdfff < c.toNat := by
      have := c.valid
      unfold UInt32.isValidChar Nat.isValidChar at this
      unfold Char.toNat
      omega
    have hunits : labelUnits (c :: s) = 1+labelUnits s := by
      unfold labelUnits
      rw [List.map_cons,List.sum_cons,if_pos hc]
    have hlen := length_utf8Bytes hc
    have hbytes := utf8Bytes_char c hc
    rw [List.flatMap_cons,charUnits,if_pos hc,List.append_assoc,List.singleton_append,
      utf16Loop_bmp (by simp [hr]) hc hvalid (by omega),hbytes,
      ih (fun c' h => hs c' (List.mem_cons_of_mem c h)) _ (by
        rw [← hbytes,List.length_append,List.length_map]
        omega),
      labelBytes,labelBytes,List.flatMap_cons,List.append_assoc]

theorem length_labelBytes_le (hs : ∀ c ∈ s, c.toNat < 0x10000) : (labelBytes s).length ≤ 3*labelUnits s := by
  induction s with
  | nil => simp [labelBytes]
  | cons c s ih =>
    have hc := hs c List.mem_cons_self
    have hlen := (length_utf8Bytes hc).2
    have hrest := ih fun c' h => hs c' (List.mem_cons_of_mem c h)
    unfold labelBytes labelUnits at *
    rw [List.flatMap_cons,List.length_append,← utf8Bytes_char c hc,List.length_map,List.map_cons,List.sum_cons,if_pos hc]
    omega

theorem cString_append {pre rest : List UInt8} (h : ∀ b ∈ pre, b ≠ 0) : cString (pre ++ rest) = pre ++ cString rest :=
  List.takeWhile_append_of_pos fun b hb => by simpa using h b hb

/-- What is read of a stored label is what the loop makes of its units. -/
theorem utf16ToUtf8_stored (rest : List ℕ) (h0 : '\x00' ∉ s) (hlen : labelUnits s ≤ 35) :
    utf16ToUtf8 (utf8ToUtf16 (labelBytes s) nameUnits ++ rest) n =
      some (utf16Loop n (s.flatMap (fun c => charUnits c.toNat) ++ [0]) [] ++ [0]) := by
  have hstore := utf8ToUtf16_chars (n := nameUnits) h0 (by
    rw [length_flatMap_charUnits]
    exact Nat.lt_succ_of_le hlen)
  have hne : ∀ u ∈ s.flatMap (fun c => charUnits c.toNat), u ≠ 0 := fun u hu => by
    obtain ⟨c,hc,hu⟩ := List.mem_flatMap.mp hu
    exact charUnits_nonzero (toNat_ne_zero h0 hc) u hu
  unfold utf16ToUtf8
  rw [labelBytes,hstore,if_pos (by simp),List.append_assoc,
    List.takeWhile_append_of_pos fun u hu => by simpa using hne u hu]
  simp

/-- A label survives the way into a name and back exactly when no character of it needs two units. -/
theorem labelRoundTrips_iff (s : List Char) (rest : List ℕ) (s8len : ℕ) (h0 : '\x00' ∉ s) (hlen : labelUnits s ≤ 35)
    (hbuf : 3*35+4 ≤ s8len) : LabelRoundTrips s rest s8len ↔ ∀ c ∈ s, c.toNat < 0x10000 := by
  unfold LabelRoundTrips
  rw [utf16ToUtf8_stored rest h0 hlen,Option.map_some,Option.some.injEq]
  constructor
  · intro hback
    by_contra! hex
    obtain ⟨c₀,hc₀,hc₀big⟩ := hex
    -- the first character of two units comes back as the bytes of a lone surrogate
    obtain ⟨c,hfind⟩ := Option.isSome_iff_exists.mp
      (List.find?_isSome (p := fun c : Char => decide (0x10000 ≤ c.toNat)).mpr ⟨c₀,hc₀,decide_eq_true hc₀big⟩)
    obtain ⟨hc,pre,post,rfl,hpre⟩ := List.find?_eq_some_iff_append.mp hfind
    have hc : 0x10000 ≤ c.toNat := of_decide_eq_true hc
    have hpre : ∀ c ∈ pre, c.toNat < 0x10000 := fun x hx => by simpa using hpre x hx
    have hvalid : c.toNat < 0x110000 := by
      have := c.valid
      unfold UInt32.isValidChar Nat.isValidChar at this
      unfold Char.toNat
      omega
    have hroom : labelUnits pre+2 ≤ 35 := by
      have hsum : labelUnits (pre ++ c :: post) = labelUnits pre+(2+labelUnits post) := by
        unfold labelUnits
        rw [List.map_append,List.sum_append,List.map_cons,List.sum_cons,if_neg (not_lt.mpr hc)]
      omega
    have h0pre : '\x00' ∉ pre := fun h => h0 (List.mem_append_left _ h)
    have hlenpre := length_labelBytes_le hpre
    obtain ⟨l,hl⟩ := utf8Bytes_surrogate (c.toNat/1024-0x40) (by omega)
    obtain ⟨b,l',hb,hne⟩ := utf8EncodeChar_astral hc
    rw [List.flatMap_append,List.flatMap_cons,charUnits,if_neg (not_lt.mpr hc),List.append_assoc,
      utf16Loop_chars (by simp) hpre [] (by simp; omega),List.nil_append,List.cons_append,List.cons_append,
      List.cons_append,List.cons_append,List.nil_append,utf16Loop_pair (by omega) (by omega) (by omega),hl] at hback
    obtain ⟨t,ht⟩ := utf16Loop_prefix s8len (List.flatMap (fun c => charUnits c.toNat) post ++ [0])
      (labelBytes pre ++ 0xed :: l)
    have hbytes : labelBytes (pre ++ c :: post) = labelBytes pre ++ (String.utf8EncodeChar c ++ labelBytes post) := by
      rw [labelBytes,List.flatMap_append,List.flatMap_cons]
      rfl
    rw [← ht,List.append_assoc,List.append_assoc,cString_append (labelBytes_nonzero h0pre),hbytes,
      List.append_cancel_left_eq,hb] at hback
    exact hne (List.cons.inj hback).1.symm
  · intro hbmp
    have hlenbytes := length_labelBytes_le hbmp
    rw [utf16Loop_chars (by simp) hbmp [] (by simp; omega),List.nil_append,utf16Loop_end (by omega),List.append_assoc,
      cString_append (labelBytes_nonzero h0)]
    exact List.append_nil _

/-- The letters `aé` survive. -/
theorem labelRoundTrips_latin : LabelRoundTrips ['a','é'] [] 109 :=
  (labelRoundTrips_iff ['a','é'] [] 109 (by decide) (by decide) (by decide)).mpr (by simp)

/-- A character beyond U+FFFF does not. -/
theorem label_astral_lost : '\x00' ∉ [Char.ofNat 0x1f600] ∧ labelUnits [Char.ofNat 0x1f600] ≤ 35 ∧
    ¬ LabelRoundTrips [Char.ofNat 0x1f600] [] 109 := by
  refine ⟨by decide,by decide,?_⟩
  unfold LabelRoundTrips
  decide

end Label

end Blub.Fgdisk
