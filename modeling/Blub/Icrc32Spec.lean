import Blub.Icrc32

/-! The eight tables give what one table gives a byte at a time, and each byte of the buffer is read. -/
namespace Blub.Icrc32
open Bytes CrcBits

variable {mem : ℕ → UInt8} {table : List ℕ}

/-- The bytes from an address on, as numbers. -/
def numbers (mem : ℕ → UInt8) (p n : ℕ) : List ℕ := (slice mem p n).map UInt8.toNat

theorem numbers_lt (p n : ℕ) : ∀ b ∈ numbers mem p n, b < 256 := by
  intro b hb
  obtain ⟨x,-,rfl⟩ := List.mem_map.mp hb
  exact x.toNat_lt

theorem length_numbers (p n : ℕ) : (numbers mem p n).length = n := by
  rw [numbers,List.length_map,length_slice]

theorem numbers_append (p m n : ℕ) : numbers mem p (m+n) = numbers mem p m ++ numbers mem (p+m) n := by
  rw [numbers,slice_append,List.map_append]
  rfl

theorem word_numbers (p n : ℕ) : word (numbers mem p n) = leGet mem p n := by
  induction n generalizing p with
  | zero => rfl
  | succ n ih => exact congrArg (fun x => (mem p).toNat+256*x) (ih (p+1))

/-- The loop over single bytes takes in the bytes of the buffer, and reads them in order. -/
theorem byteTurn_iterate (n : ℕ) (s : Run) : (byteTurn mem table)^[n] s =
    ⟨(numbers mem s.pBuf n).foldl (feed table) s.crc,s.pBuf+n,s.reads ++ List.range' s.pBuf n⟩ := by
  induction n generalizing s with
  | zero => simp [numbers,slice]
  | succ n ih =>
    rw [Function.iterate_succ_apply,ih,byteTurn]
    refine Run.mk.injEq .. |>.mpr ⟨rfl,?_,?_⟩
    · exact Nat.succ_add_eq_add_succ s.pBuf n
    · rw [List.append_assoc]
      rfl

theorem tables_bits : crc32Table = byteTable poly 8 ∧ iscsiCrc32Table = byteTable poly 8 ∧
    sctpCrcTableil8O32 = byteTable poly 8 ∧ sctpCrcTableil8O40 = byteTable poly 16 ∧
    sctpCrcTableil8O48 = byteTable poly 24 ∧ sctpCrcTableil8O56 = byteTable poly 32 ∧
    sctpCrcTableil8O64 = byteTable poly 40 ∧ sctpCrcTableil8O72 = byteTable poly 48 ∧
    sctpCrcTableil8O80 = byteTable poly 56 ∧ sctpCrcTableil8O88 = byteTable poly 64 := by
  have h := tables_eq
  simp only [List.map_cons,List.map_nil,List.cons.injEq,and_true] at h
  exact h

theorem mask_lt (x : ℕ) : x &&& 0xff < 256 := lt_of_le_of_lt Nat.and_le_right (by decide)

/-- Eight bytes at a time are eight turns of the loop over single bytes. -/
theorem eightTurn_eq {s : Run} (hcrc : s.crc < 2^32) : eightTurn mem s = (byteTurn mem sctpCrcTableil8O32)^[8] s := by
  obtain ⟨-,-,h32,h40,h48,h56,h64,h72,h80,h88⟩ := tables_bits
  have hw := leGet_lt mem s.pBuf 4
  have hfirst := @bits_word poly (s.crc ^^^ leGet mem s.pBuf 4) (Nat.xor_lt_two_pow hcrc hw) 32
  have hsecond := @bits_word poly (leGet mem (s.pBuf+4) 4) (leGet_lt mem (s.pBuf+4) 4) 0
  have hcrc' : (numbers mem s.pBuf 8).foldl (feed sctpCrcTableil8O32) s.crc =
      bits poly 64 (s.crc ^^^ leGet mem s.pBuf 4) ^^^ bits poly 32 (leGet mem (s.pBuf+4) 4) := by
    rw [numbers_append s.pBuf 4 4,List.foldl_append,feeds_eq h32 _ (numbers_lt _ _),feeds_eq h32 _ (numbers_lt _ _),
      length_numbers,length_numbers,word_numbers,word_numbers,bits_xor,← bits_add]
  rw [byteTurn_iterate,hcrc',eightTurn]
  simp only [h32,h40,h48,h56,h64,h72,h80,h88,byteTable_getD _ (mask_lt _)]
  rw [hfirst,hsecond]
  simp only [Nat.xor_assoc]

theorem byteTurn_lt (ht : table = byteTable poly 8) (n : ℕ) {s : Run} (hs : s.crc < 2^32) :
    ((byteTurn mem table)^[n] s).crc < 2^32 := by
  induction n with
  | zero => exact hs
  | succ n ih =>
    rw [Function.iterate_succ_apply',byteTurn,feed_eq ht _ (UInt8.toNat_lt _)]
    refine bits_lt (by decide) (Nat.xor_lt_two_pow ih ?_) 8
    exact (UInt8.toNat_lt _).trans (by decide)

theorem eightTurn_iterate (k : ℕ) {s : Run} (hs : s.crc < 2^32) :
    (eightTurn mem)^[k] s = (byteTurn mem sctpCrcTableil8O32)^[8*k] s := by
  induction k with
  | zero => rfl
  | succ k ih =>
    rw [Function.iterate_succ_apply',ih,eightTurn_eq (byteTurn_lt tables_bits.2.2.1 _ hs),
      ← Function.iterate_add_apply,Nat.mul_succ,Nat.add_comm]

/-- The bytes before an even word, the pairs of words and the last bytes are the bytes of the buffer. -/
theorem calculateCrc32c_eq {crc length : ℕ} (buf : ℕ) (hcrc : crc < 2^32) (hlen : length < 2^32) :
    calculateCrc32c mem crc buf length = singletableCrc32c mem crc buf length := by
  obtain ⟨h,-,h32,-⟩ := tables_bits
  rw [calculateCrc32c]
  by_cases hshort : length < 4
  · rw [if_pos hshort]
  rw [if_neg hshort,multitableCrc32c,if_neg (by omega),crc32cSb8,singletableCrc32c]
  have hinit : 4-(buf &&& 0x3) ≤ length := by omega
  generalize 4-(buf &&& 0x3) = init at hinit
  have hsub : sub32 length init = length-init := by
    unfold sub32
    omega
  have hend : sub32 (length-init) ((length-init)/8*8) = (length-init)%8 := by
    unfold sub32
    omega
  rw [hsub,hend,Nat.mul_div_cancel _ (by decide),eightTurn_iterate _ (byteTurn_lt h32 _ hcrc),
    ← Function.iterate_add_apply,← Function.iterate_add_apply,h,h32]
  congr 1
  omega

/-- The checksum of the numbers of a buffer, without the two complements. -/
def remainder (crc : ℕ) (l : List ℕ) : ℕ := l.foldl (feed crc32Table) crc

theorem remainder_lt {crc : ℕ} (hcrc : crc < 2^32) (p n : ℕ) : remainder crc (numbers mem p n) < 2^32 := by
  have h := @byteTurn_lt mem crc32Table tables_bits.1 n _ (show (⟨crc,p,[]⟩ : Run).crc < 2^32 from hcrc)
  rwa [byteTurn_iterate] at h

theorem singletableCrc32c_eq (crc buf size : ℕ) : singletableCrc32c mem crc buf size =
    ⟨remainder crc (numbers mem buf size),buf+size,List.range' buf size⟩ := byteTurn_iterate size ⟨crc,buf,[]⟩

theorem not32_not32 (a : ℕ) : not32 (not32 a) = a := by
  rw [not32,not32,Nat.xor_assoc,Nat.xor_self,Nat.xor_zero]

theorem not32_lt {a : ℕ} (ha : a < 2^32) : not32 a < 2^32 := Nat.xor_lt_two_pow ha (by decide)

theorem iscsiCrc32Ext_eq (buf : ℕ) {size crc : ℕ} (hsize : size < 2^32) (hcrc : crc < 2^32) :
    iscsiCrc32Ext mem buf size crc = not32 (remainder (not32 crc) (numbers mem buf size)) := by
  rw [iscsiCrc32Ext,Nat.mod_eq_of_lt hsize,calculateCrc32c_eq buf (not32_lt hcrc) hsize,singletableCrc32c_eq]

theorem boot2IscsiCrc32Ext_eq (buf size crc : ℕ) :
    boot2IscsiCrc32Ext mem buf size crc = not32 (remainder (not32 crc) (numbers mem buf size)) := by
  rw [boot2IscsiCrc32Ext,byteTurn_iterate,tables_bits.2.1,← tables_bits.1]
  rfl

theorem iscsiCrc32_ext (buf size : ℕ) : iscsiCrc32 mem buf size = iscsiCrc32Ext mem buf size 0 := rfl

theorem boot2IscsiCrc32_ext (buf size : ℕ) : boot2IscsiCrc32 mem buf size = boot2IscsiCrc32Ext mem buf size 0 := rfl

/-- The checksum goes on where that of the first part ended. -/
theorem iscsiCrc32Ext_append {m n whole : ℕ} (a b : ℕ) (hsize : m+n < 2^32)
    (hwhole : slice mem whole (m+n) = slice mem a m ++ slice mem b n) :
    iscsiCrc32Ext mem b n (iscsiCrc32 mem a m) = iscsiCrc32 mem whole (m+n) := by
  have hone : not32 0 < 2^32 := by decide
  have hfirst := @remainder_lt mem _ hone a m
  have hnumbers : numbers mem whole (m+n) = numbers mem a m ++ numbers mem b n := by
    rw [numbers,hwhole,List.map_append]
    rfl
  rw [iscsiCrc32_ext,iscsiCrc32_ext,iscsiCrc32Ext_eq a (by omega) (by decide),
    iscsiCrc32Ext_eq b (by omega) (not32_lt hfirst),iscsiCrc32Ext_eq whole hsize (by decide),not32_not32,hnumbers,
    remainder,remainder,remainder,List.foldl_append]

/-- The fast checksum is the slow one and reads its buffer, and the loader, `boot2` and the checksum in parts agree. -/
theorem crc32c_agree (mem : ℕ → UInt8) :
    (∀ crc buf length, crc < 2^32 → length < 2^32 →
      (calculateCrc32c mem crc buf length).crc = (singletableCrc32c mem crc buf length).crc ∧
        (calculateCrc32c mem crc buf length).reads = List.range' buf length) ∧
    (∀ buf size, size < 2^32 → iscsiCrc32 mem buf size = boot2IscsiCrc32 mem buf size) ∧
    (∀ buf size crc, size < 2^32 → crc < 2^32 → iscsiCrc32Ext mem buf size crc = boot2IscsiCrc32Ext mem buf size crc) ∧
    ∀ a b whole m n, m+n < 2^32 → slice mem whole (m+n) = slice mem a m ++ slice mem b n →
      iscsiCrc32Ext mem b n (iscsiCrc32 mem a m) = iscsiCrc32 mem whole (m+n) := by
  refine ⟨fun crc buf length hcrc hlen => ?_,fun buf size hsize => ?_,fun buf size crc hsize hcrc => ?_,
    fun a b whole m n => iscsiCrc32Ext_append a b⟩
  · rw [calculateCrc32c_eq buf hcrc hlen,singletableCrc32c_eq]
    exact ⟨rfl,rfl⟩
  · rw [iscsiCrc32_ext,boot2IscsiCrc32_ext,iscsiCrc32Ext_eq buf hsize (by decide),boot2IscsiCrc32Ext_eq]
  · rw [iscsiCrc32Ext_eq buf hsize hcrc,boot2IscsiCrc32Ext_eq]

/-- The digits from 1 to 9 at an odd address. -/
theorem crc32c_agree_digits : iscsiCrc32 (fun a => UInt8.ofNat (a+42)) 7 9 = 0xe3069283 ∧
    boot2IscsiCrc32 (fun a => UInt8.ofNat (a+42)) 7 9 = 0xe3069283 ∧
    iscsiCrc32Ext (fun a => UInt8.ofNat (a+42)) 11 5 (iscsiCrc32 (fun a => UInt8.ofNat (a+42)) 7 4) = 0xe3069283 := by
  obtain ⟨-,hboot2,-,happend⟩ := crc32c_agree fun a => UInt8.ofNat (a+42)
  have hsum : iscsiCrc32 (fun a => UInt8.ofNat (a+42)) 7 9 = 0xe3069283 := by decide
  exact ⟨hsum,(hboot2 7 9 (by decide)).symm.trans hsum,(happend 7 11 7 4 5 (by decide) rfl).trans hsum⟩

section Burst
variable {mem' : ℕ → UInt8}

theorem remainder_eq (crc p n : ℕ) : remainder crc (numbers mem p n) = bits poly (8*n) (crc ^^^ word (numbers mem p n)) := by
  rw [remainder,feeds_eq tables_bits.1 crc (numbers_lt p n),length_numbers]

/-- After different remainders the same bytes give different ones. -/
theorem remainder_injective {crc crc' : ℕ} (hcrc : crc < 2^32) (hcrc' : crc' < 2^32) (p n : ℕ)
    (h : remainder crc (numbers mem p n) = remainder crc' (numbers mem p n)) : crc = crc' := by
  rw [remainder_eq,remainder_eq] at h
  have hxor : (crc ^^^ word (numbers mem p n)) ^^^ (crc' ^^^ word (numbers mem p n)) = crc ^^^ crc' := by
    rw [Nat.xor_comm crc',Nat.xor_assoc,← Nat.xor_assoc (word _),Nat.xor_self,Nat.zero_xor]
  have hlt : (crc ^^^ word (numbers mem p n)) ^^^ (crc' ^^^ word (numbers mem p n)) < 2^(31+1) := by
    rw [hxor]
    exact Nat.xor_lt_two_pow hcrc hcrc'
  have heq := bits_injective (by decide) (by decide) (8*n) hlt h
  rw [← Nat.xor_eq_zero_iff,hxor,Nat.xor_eq_zero_iff] at heq
  exact heq

/-- Up to four bytes are not lost in a remainder. -/
theorem remainder_word {crc k : ℕ} (hcrc : crc < 2^32) (hk : k ≤ 4) (p : ℕ)
    (h : remainder crc (numbers mem p k) = remainder crc (numbers mem' p k)) : numbers mem p k = numbers mem' p k := by
  have hlen : (numbers mem p k).length = (numbers mem' p k).length := by rw [length_numbers,length_numbers]
  have hpow : 256^k ≤ 2^32 := (Nat.pow_le_pow_right (by decide) hk).trans (by decide)
  have hword := word_lt (@numbers_lt mem p k)
  have hword' := word_lt (@numbers_lt mem' p k)
  rw [length_numbers] at hword hword'
  rw [remainder_eq,remainder_eq] at h
  have heq := bits_injective (w := 31) (by decide) (by decide) (8*k) (Nat.xor_lt_two_pow (Nat.xor_lt_two_pow hcrc (by omega))
    (Nat.xor_lt_two_pow hcrc (by omega))) h
  exact word_injective hlen (numbers_lt p k) (numbers_lt p k) (Nat.xor_right_injective heq)

theorem numbers_congr {p n : ℕ} (h : ∀ j < n, mem (p+j) = mem' (p+j)) : numbers mem p n = numbers mem' p n := by
  induction n generalizing p with
  | zero => rfl
  | succ n ih =>
    rw [Nat.add_comm,numbers_append,numbers_append,ih fun j hj => by simpa [Nat.add_assoc] using h (1+j) (by omega)]
    have hfirst := h 0 (Nat.succ_pos n)
    simp only [Nat.add_zero] at hfirst
    simp [numbers,slice,hfirst]

theorem numbers_bytes {p n : ℕ} (h : numbers mem p n = numbers mem' p n) : ∀ j < n, mem (p+j) = mem' (p+j) := by
  intro j hj
  have hget := congrArg (fun l => l[j]?) h
  exact UInt8.toNat_inj.mp (by simpa [numbers,slice,hj] using hget)

/-- A change within four bytes next to each other is seen in the checksum, wherever it is in the buffer. -/
theorem crc32c_detects_burst (mem mem' : ℕ → UInt8) {buf size i : ℕ} (hsize : size < 2^32)
    (hsame : ∀ j < size, j < i ∨ i+4 ≤ j → mem (buf+j) = mem' (buf+j)) :
    iscsiCrc32 mem buf size = iscsiCrc32 mem' buf size ↔ ∀ j < size, mem (buf+j) = mem' (buf+j) := by
  have hone : not32 0 < 2^32 := by decide
  rw [iscsiCrc32_ext,iscsiCrc32_ext,iscsiCrc32Ext_eq buf hsize (by decide),iscsiCrc32Ext_eq buf hsize (by decide)]
  constructor
  · intro h
    have hrem : remainder (not32 0) (numbers mem buf size) = remainder (not32 0) (numbers mem' buf size) := by
      rw [← not32_not32 (remainder _ (numbers mem buf size)),h,not32_not32]
    by_cases hi : size ≤ i
    · exact fun j hj => hsame j hj (.inl (by omega))
    -- the bytes before the change, those that may differ, and those behind
    · have hsplit : size = i+(min 4 (size-i)+(size-i-min 4 (size-i))) := by omega
      have hbefore := @numbers_congr mem mem' buf i fun j hj => hsame j (by omega) (.inl hj)
      have hbehind := @numbers_congr mem mem' (buf+i+min 4 (size-i)) (size-i-min 4 (size-i)) fun j hj => by
        have hj' := hsame (i+min 4 (size-i)+j) (by omega) (.inr (by omega))
        simpa [Nat.add_assoc] using hj'
      rw [hsplit,numbers_append,numbers_append,numbers_append,numbers_append,hbefore,hbehind] at hrem
      simp only [remainder,List.foldl_append] at hrem
      have hfirst := @remainder_lt mem' _ hone buf i
      have hmiddle := remainder_injective (@remainder_lt mem _ hfirst (buf+i) (min 4 (size-i)))
        (@remainder_lt mem' _ hfirst (buf+i) (min 4 (size-i))) _ _ hrem
      have hbytes := numbers_bytes (remainder_word hfirst (Nat.min_le_left 4 _) (buf+i) hmiddle)
      intro j hj
      by_cases hin : j < i ∨ i+4 ≤ j
      · exact hsame j hj hin
      · have hj' := hbytes (j-i) (by omega)
        rwa [Nat.add_assoc,Nat.add_sub_cancel' (by omega)] at hj'
  · intro h
    rw [numbers_congr h]

/-- One bit of the byte at 3. -/
theorem crc32c_detects_burst_bit : iscsiCrc32 (fun a => if a = 3 then 1 else 0) 0 9 ≠ iscsiCrc32 (fun _ => 0) 0 9 := by
  intro h
  have hall := (crc32c_detects_burst (fun a => if a = 3 then 1 else 0) (fun _ => 0) (i := 2) (by decide)
    fun j _ hj => if_neg (by omega)).mp h 3 (by decide)
  cases hall

end Burst

end Blub.Icrc32
