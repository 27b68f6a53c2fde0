import Blub.Lib.Bytes

/-! Transfers by the interrupt 0x13 of the BIOS, as `biosdisk.c` and `bioscd.c` make them: piece by piece, with three
attempts at each, and by a bounce buffer or not. -/
namespace Blub.Boot.Int13
open Bytes

section Code

def vtopseg (a : ℕ) : ℕ := (a >>> 4)%2^16
def vtopoff (a : ℕ) : ℕ := a &&& 0xf

/-- A call for a transfer, with an `edd_packet` or in registers. -/
inductive Call
  | edd (eax edx count off seg lba : ℕ)
  | chs (eax ecx edx es ebx : ℕ)
  deriving DecidableEq

/-- A call for a transfer with the number of the attempt and the carry flag, or one that resets the drive. -/
inductive Event
  | call (c : Call) (retry : ℕ) (ok : Bool)
  | reset (edx : ℕ)
  deriving DecidableEq

/-- The BIOS with its medium: the bytes of the blocks, the attempts at each transfer that fail, and what they leave. -/
structure Bios where
  sector : ℕ → ℕ → UInt8
  fails : ℕ → ℕ → Bool
  junk : ℕ → ℕ → ℕ → UInt8

/-- What tells the loops of the drivers apart: the geometry, the blocks of a turn, the call for them, and whether a
transfer that fails ends the loop. -/
structure Driver where
  unit : ℕ
  hds : ℕ
  sec : ℕ
  ss : ℕ
  size : ℕ → ℕ → ℕ
  io : ℕ → ℕ → ℕ → Option Call
  stops : Bool

/-- The memory, and the calls of each turn. -/
structure State where
  mem : ℕ → UInt8
  turns : List (List Event)

/-- What a call asks for: the block, the number of blocks and the linear address. -/
def Call.lba (hds sec : ℕ) : Call → ℕ
  | .edd _ _ _ _ _ lba => lba
  | .chs _ ecx edx _ _ => ((ecx/256%256+ecx/64%4*256)*hds+edx/256%256)*sec+(ecx%64-1)

def Call.count : Call → ℕ
  | .edd _ _ count _ _ _ => count
  | .chs eax _ _ _ _ => eax%256

def Call.addr : Call → ℕ
  | .edd _ _ _ off seg _ => seg*16+off
  | .chs _ _ _ es ebx => es*16+ebx

def Bios.data (b : Bios) (ss lba j : ℕ) : UInt8 := b.sector (lba+j/ss) (j%ss)

attribute [local grind =] Call.lba Call.count

variable (d : Driver) (b : Bios) (write : Bool) (breg : Option ℕ)

/-- What a call does to the memory. A read that fails may leave anything where it reads to. -/
def Event.apply (k : ℕ) (mem : ℕ → UInt8) : Event → ℕ → UInt8
  | .call c retry ok =>
    if write then mem
    else blit mem c.addr (c.count*d.ss) (if ok then b.data d.ss (c.lba d.hds d.sec) else b.junk k retry)
  | .reset _ => mem

/-- The attempts at transfer `k`, from number `retry` on, with a reset before each but the first. Without a call for it, an
attempt fails. -/
def tries (k : ℕ) (io : Option Call) : ℕ → ℕ → Bool × List Event
  | 0, _ => (false,[])
  | n+1, retry =>
    let reset := if retry > 0 then [Event.reset d.unit] else []
    match io with
    | none => ((tries k io n (retry+1)).1,reset ++ (tries k io n (retry+1)).2)
    | some c =>
      if b.fails k retry then
        ((tries k io n (retry+1)).1,reset ++ .call c retry false :: (tries k io n (retry+1)).2)
      else (true,reset ++ [.call c retry true])

/-- A turn of the loop up to the last attempt: `x` blocks from `dblk` on, and the memory at `p`. -/
def Driver.turn (p dblk x : ℕ) (s : State) : Bool × State :=
  let mem :=
    match breg with
    | some r => if write then blit s.mem r (x*d.ss) fun j => s.mem (p+j) else s.mem
    | none => s.mem
  let (ok,ev) := tries d b s.turns.length (d.io dblk x (breg.getD p)) 3 0
  (ok,⟨ev.foldl (Event.apply d b write s.turns.length) mem,s.turns ++ [ev]⟩)

/-- What was read goes from the bounce buffer to its place. -/
def Driver.copyBack (p x : ℕ) (s : State) : State :=
  match breg with
  | some r => if write then s else {s with mem := blit s.mem p (x*d.ss) fun j => s.mem (r+j)}
  | none => s

def Driver.loop : ℕ → ℕ → ℕ → ℕ → State → Option (ℤ × State)
  | 0, _, _, resid, s => if resid = 0 then some (0,s) else none
  | fuel+1, p, dblk, resid, s =>
    if resid = 0 then some (0,s)
    else
      let x := d.size dblk resid
      let (ok,s) := d.turn b write breg p dblk x s
      if d.stops ∧ ok = false then some (-1,s)
      else Driver.loop fuel (p+x*d.ss) (dblk+x) (resid-x) (d.copyBack write breg p x s)

attribute [local grind =] tries Driver.loop

end Code

section Pieces
variable (d : Driver)

/-- What one turn is to transfer: the place in memory, the first block and the number of blocks. -/
structure Chunk where
  p : ℕ
  lba : ℕ
  count : ℕ
  deriving DecidableEq

/-- The pieces that a request is split into. -/
def Driver.pieces : ℕ → ℕ → ℕ → ℕ → List Chunk
  | 0, _, _, _ => []
  | fuel+1, p, dblk, resid =>
    if resid = 0 then []
    else
      ⟨p,dblk,d.size dblk resid⟩ :: Driver.pieces fuel (p+d.size dblk resid*d.ss) (dblk+d.size dblk resid)
        (resid-d.size dblk resid)

/-- Pieces that go on where the one before ended. -/
inductive Chain (ss : ℕ) : ℕ → ℕ → ℕ → List Chunk → Prop
  | nil (p lba : ℕ) : Chain ss p lba 0 []
  | cons {p lba x n : ℕ} {l : List Chunk} (hx : 0 < x) (h : Chain ss (p+x*ss) (lba+x) n l) :
      Chain ss p lba (x+n) (⟨p,lba,x⟩ :: l)

def Driver.Splits : Prop := ∀ dblk resid, 0 < resid → 0 < d.size dblk resid ∧ d.size dblk resid ≤ resid

attribute [local grind =] Driver.pieces

variable (b : Bios) (write : Bool) (breg : Option ℕ)

def Driver.call (pc : Chunk) : Option Call := d.io pc.lba pc.count (breg.getD pc.p)

/-- The transfer of number `k` can be asked for, and one of three attempts succeeds. -/
def Driver.Succeeds (k : ℕ) (pc : Chunk) : Prop := (d.call breg pc).isSome = true ∧ ∃ t < 3, b.fails k t = false

/-- The loop over the pieces. -/
def Driver.run : List Chunk → State → ℤ × State
  | [], s => (0,s)
  | pc :: l, s =>
    let (ok,s) := d.turn b write breg pc.p pc.lba pc.count s
    if d.stops ∧ ok = false then (-1,s) else Driver.run l (d.copyBack write breg pc.p pc.count s)

attribute [local grind =] Driver.run

variable {d b write breg}

theorem pieces_chain (hd : d.Splits) {fuel resid : ℕ} (hfuel : resid ≤ fuel) (p dblk : ℕ) :
    Chain d.ss p dblk resid (d.pieces fuel p dblk resid) := by
  induction fuel generalizing resid p dblk with
  | zero =>
    obtain rfl := Nat.le_zero.mp hfuel
    exact .nil p dblk
  | succ fuel ih =>
    rw [Driver.pieces]
    by_cases h₀ : resid = 0
    · subst h₀
      exact .nil p dblk
    · obtain ⟨hpos,hle⟩ := hd dblk resid (by omega)
      rw [if_neg h₀]
      have h := Chain.cons hpos (@ih (resid-d.size dblk resid) (by omega) (p+d.size dblk resid*d.ss)
        (dblk+d.size dblk resid))
      rwa [Nat.add_sub_cancel' hle] at h

theorem loop_eq (hd : d.Splits) {fuel resid : ℕ} (hfuel : resid ≤ fuel) (p dblk : ℕ) (s : State) :
    d.loop b write breg fuel p dblk resid s = some (d.run b write breg (d.pieces fuel p dblk resid) s) := by
  induction fuel generalizing resid p dblk s with
  | zero =>
    obtain rfl := Nat.le_zero.mp hfuel
    rfl
  | succ fuel ih =>
    rw [Driver.loop,Driver.pieces]
    by_cases h₀ : resid = 0
    · rw [if_pos h₀,if_pos h₀]
      rfl
    · obtain ⟨hpos,hle⟩ := hd dblk resid (by omega)
      rw [if_neg h₀,if_neg h₀,Driver.run]
      dsimp only
      by_cases hstop : d.stops ∧ (d.turn b write breg p dblk (d.size dblk resid) s).1 = false
      · rw [if_pos hstop,if_pos hstop]
      · rw [if_neg hstop,if_neg hstop]
        exact ih (by omega) _ _ _

end Pieces

section Tries
variable {d : Driver} {b : Bios} {io : Option Call} {k : ℕ}

def Event.asked : Event → Option Call
  | .call c _ _ => some c
  | .reset _ => none

def Event.done : Event → Option Call
  | .call c _ true => some c
  | _ => none

theorem tries_none (n retry : ℕ) : tries d b k none (n+1) retry =
    ((tries d b k none n (retry+1)).1,
      (if retry > 0 then [Event.reset d.unit] else []) ++ (tries d b k none n (retry+1)).2) := rfl

theorem tries_some (c : Call) (n retry : ℕ) : tries d b k (some c) (n+1) retry =
    if b.fails k retry then ((tries d b k (some c) n (retry+1)).1,
      (if retry > 0 then [Event.reset d.unit] else []) ++ .call c retry false :: (tries d b k (some c) n (retry+1)).2)
    else (true,(if retry > 0 then [Event.reset d.unit] else []) ++ [.call c retry true]) := rfl

theorem asked_cons (c : Call) (retry : ℕ) (ok : Bool) (l : List Event) :
    (Event.call c retry ok :: l).filterMap Event.asked = c :: l.filterMap Event.asked := rfl

theorem done_cons (c : Call) (retry : ℕ) (l : List Event) :
    (Event.call c retry false :: l).filterMap Event.done = l.filterMap Event.done := rfl

theorem asked_reset (retry : ℕ) :
    (if retry > 0 then [Event.reset d.unit] else []).filterMap Event.asked = [] := by
  split_ifs <;> rfl

theorem done_reset (retry : ℕ) : (if retry > 0 then [Event.reset d.unit] else []).filterMap Event.done = [] := by
  split_ifs <;> rfl

theorem tries_iff (n retry : ℕ) :
    (tries d b k io n retry).1 = true ↔ io.isSome = true ∧ ∃ t < n, b.fails k (retry+t) = false := by
  induction n generalizing retry with
  | zero => simp [tries]
  | succ n ih =>
    have hsplit : (∃ t < n+1, b.fails k (retry+t) = false) ↔
        b.fails k retry = false ∨ ∃ t < n, b.fails k (retry+1+t) = false := by
      constructor
      · rintro ⟨t,ht,hf⟩
        cases t with
        | zero => exact Or.inl hf
        | succ t => exact Or.inr ⟨t,by omega,by rwa [Nat.add_assoc,Nat.add_comm 1]⟩
      · rintro (hf | ⟨t,ht,hf⟩)
        · exact ⟨0,Nat.succ_pos n,hf⟩
        · exact ⟨t+1,by omega,by rwa [Nat.add_comm t,← Nat.add_assoc]⟩
    rw [hsplit]
    cases io with
    | none => simpa [tries_none] using ih (retry+1)
    | some c =>
      by_cases hf : b.fails k retry = true
      · simp [tries_some,hf,ih]
      · simp [tries_some,hf]

/-- Of the calls only the last one can succeed. -/
theorem tries_done (n retry : ℕ) : (tries d b k io n retry).2.filterMap Event.done =
    if (tries d b k io n retry).1 then io.toList else [] := by
  induction n generalizing retry with
  | zero => rfl
  | succ n ih =>
    cases io with
    | none => simpa [tries_none,List.filterMap_append,done_reset] using ih (retry+1)
    | some c =>
      by_cases hf : b.fails k retry = true
      · simp [tries_some,hf,List.filterMap_append,done_reset,done_cons,ih]
      · simp [tries_some,hf,List.filterMap_append,done_reset,Event.done]

theorem tries_asked (n retry : ℕ) : ((tries d b k io n retry).2.filterMap Event.asked).length ≤ n ∧
    ∀ c ∈ (tries d b k io n retry).2.filterMap Event.asked, io = some c := by
  induction n generalizing retry with
  | zero => simp [tries]
  | succ n ih =>
    obtain ⟨hlen,hall⟩ := ih (retry+1)
    cases io with
    | none =>
      rw [tries_none,List.filterMap_append,asked_reset]
      exact ⟨Nat.le_succ_of_le hlen,hall⟩
    | some c =>
      rw [tries_some]
      by_cases hf : b.fails k retry = true
      · simp only [hf,if_true,List.filterMap_append,asked_reset,asked_cons,List.nil_append,List.length_cons,List.mem_cons,
          forall_eq_or_imp,true_and]
        exact ⟨Nat.succ_le_succ hlen,hall⟩
      · simp [hf,List.filterMap_append,asked_reset,Event.asked]

/-- The attempts at a read leave the rest of the memory alone, and what the last one reads is there if it succeeds. -/
theorem tries_mem {c : Call} (n retry : ℕ) (mem : ℕ → UInt8) :
    (∀ a, (a < c.addr ∨ c.addr+c.count*d.ss ≤ a) →
      (tries d b k (some c) n retry).2.foldl (Event.apply d b false k) mem a = mem a) ∧
    ((tries d b k (some c) n retry).1 = true → ∀ j < c.count*d.ss,
      (tries d b k (some c) n retry).2.foldl (Event.apply d b false k) mem (c.addr+j) =
        b.data d.ss (c.lba d.hds d.sec) j) := by
  have hreset : ∀ mem, (if retry > 0 then [Event.reset d.unit] else []).foldl (Event.apply d b false k) mem = mem := by
    intro mem
    split_ifs <;> rfl
  induction n generalizing retry mem with
  | zero => simp [tries]
  | succ n ih =>
    rw [tries_some]
    by_cases hf : b.fails k retry = true
    · obtain ⟨hout,hin⟩ := ih (retry+1) (Event.apply d b false k mem (.call c retry false)) fun mem => by
        split_ifs <;> rfl
      rw [if_pos hf,List.foldl_append,hreset,List.foldl_cons]
      refine ⟨fun a ha => ?_,hin⟩
      rw [hout a ha]
      exact blit_outside ha
    · rw [if_neg hf,List.foldl_append,hreset,List.foldl_cons,List.foldl_nil]
      refine ⟨fun a ha => blit_outside ha,fun _ j hj => ?_⟩
      have h := @blit_inside mem (b.data d.ss (c.lba d.hds d.sec)) c.addr (c.count*d.ss) (c.addr+j) (by omega) (by omega)
      rw [Nat.add_sub_cancel_left] at h
      exact h

end Tries

section Runs
variable {d : Driver} {b : Bios} {write : Bool} {breg : Option ℕ}

instance (k : ℕ) (pc : Chunk) : Decidable (d.Succeeds b breg k pc) := inferInstanceAs (Decidable (_ ∧ _))

/-- The calls of the turns, and those of them that succeed. -/
def askedIn (turns : List (List Event)) : List Call := turns.flatMap fun t => t.filterMap Event.asked

def doneIn (turns : List (List Event)) : List Call := turns.flatMap fun t => t.filterMap Event.done

/-- At most three attempts are made in each turn. -/
def Tried (turns : List (List Event)) : Prop := ∀ t ∈ turns, (t.filterMap Event.asked).length ≤ 3

/-- The pieces up to the first one that cannot be transferred, from transfer `k` on. -/
def Driver.served (d : Driver) (b : Bios) (breg : Option ℕ) : ℕ → List Chunk → List Chunk
  | _, [] => []
  | k, pc :: l => if d.Succeeds b breg k pc then pc :: Driver.served d b breg (k+1) l else []

/-- The calls that succeed if all pieces are tried. -/
def Driver.doneCalls (d : Driver) (b : Bios) (breg : Option ℕ) : ℕ → List Chunk → List Call
  | _, [] => []
  | k, pc :: l => (if d.Succeeds b breg k pc then (d.call breg pc).toList else []) ++ Driver.doneCalls d b breg (k+1) l

/-- The turns that a run adds are those of the attempts. -/
def Attempts (d : Driver) (b : Bios) (turns : List (List Event)) : Prop := ∀ t ∈ turns, ∃ k io, t = (tries d b k io 3 0).2

attribute [local grind =] Driver.served Driver.doneCalls

theorem tried_attempts {turns : List (List Event)} (h : Attempts d b turns) : Tried turns := by
  intro t ht
  obtain ⟨k,io,rfl⟩ := h t ht
  exact (tries_asked 3 0).1

theorem asked_done {turns : List (List Event)} (h : Attempts d b turns) (hno : ∀ k t, b.fails k t = false) :
    askedIn turns = doneIn turns := by
  refine List.flatMap_congr fun t ht => ?_
  obtain ⟨k,io,rfl⟩ := h t ht
  cases io with
  | none => rfl
  | some c =>
    rw [tries_some,if_neg (by rw [hno]; exact Bool.false_ne_true)]
    rfl

theorem turn_spec (pc : Chunk) (s : State) : ∃ ev, (d.turn b write breg pc.p pc.lba pc.count s).2.turns = s.turns ++ [ev] ∧
    (∃ k io, ev = (tries d b k io 3 0).2) ∧
    ((d.turn b write breg pc.p pc.lba pc.count s).1 = true ↔ d.Succeeds b breg s.turns.length pc) ∧
    ev.filterMap Event.done = if d.Succeeds b breg s.turns.length pc then (d.call breg pc).toList else [] := by
  have hiff := @tries_iff d b (d.call breg pc) s.turns.length 3 0
  simp only [Nat.zero_add] at hiff
  refine ⟨(tries d b s.turns.length (d.call breg pc) 3 0).2,rfl,⟨_,_,rfl⟩,hiff,?_⟩
  rw [tries_done]
  by_cases h : d.Succeeds b breg s.turns.length pc
  · rw [if_pos h,if_pos (hiff.mpr h)]
  · rw [if_neg h,if_neg fun ht => h (hiff.mp ht)]

theorem copyBack_turns (p x : ℕ) (s : State) : (d.copyBack write breg p x s).turns = s.turns := by
  unfold Driver.copyBack
  cases breg with
  | none => rfl
  | some r => cases write <;> rfl

theorem doneIn_cons (ev : List Event) (l : List (List Event)) : doneIn (ev :: l) = ev.filterMap Event.done ++ doneIn l :=
  List.flatMap_cons

/-- A driver that stops at a transfer that fails: it has made the ones before. -/
theorem run_stops (hd : d.stops = true) (l : List Chunk) (s : State) :
    ∃ new, (d.run b write breg l s).2.turns = s.turns ++ new ∧ Attempts d b new ∧
      doneIn new = (d.served b breg s.turns.length l).flatMap (fun pc => (d.call breg pc).toList) ∧
      (d.run b write breg l s).1 = if d.served b breg s.turns.length l = l then 0 else -1 := by
  induction l generalizing s with
  | nil => exact ⟨[],(List.append_nil _).symm,by simp [Attempts],rfl,rfl⟩
  | cons pc l ih =>
    obtain ⟨ev,hturns,htries,hok,hdone⟩ := @turn_spec d b write breg pc s
    rw [Driver.run,Driver.served]
    dsimp only
    by_cases h : d.Succeeds b breg s.turns.length pc
    · rw [if_neg (by rw [hok.mpr h]; simp),if_pos h]
      rw [if_pos h] at hdone
      obtain ⟨new,hnew,hatt,hall,hres⟩ := ih (d.copyBack write breg pc.p pc.count
        (d.turn b write breg pc.p pc.lba pc.count s).2)
      rw [copyBack_turns,hturns] at hnew hall hres
      rw [List.length_append,List.length_singleton] at hall hres
      refine ⟨ev :: new,by rw [hnew,List.append_assoc]; rfl,List.forall_mem_cons.mpr ⟨htries,hatt⟩,?_,?_⟩
      · rw [doneIn_cons,hdone,hall,List.flatMap_cons]
      · rw [hres]
        simp only [List.cons.injEq,true_and]
    · have hno : (d.turn b write breg pc.p pc.lba pc.count s).1 = false :=
        Bool.eq_false_iff.mpr fun ht => h (hok.mp ht)
      rw [if_pos ⟨hd,hno⟩,if_neg h]
      rw [if_neg h] at hdone
      refine ⟨[ev],hturns,List.forall_mem_singleton.mpr htries,?_,by simp⟩
      rw [doneIn_cons,hdone]
      rfl

/-- A driver that goes on in any case reports no error. -/
theorem run_goes (hd : d.stops = false) (l : List Chunk) (s : State) : (d.run b write breg l s).1 = 0 ∧
    ∃ new, (d.run b write breg l s).2.turns = s.turns ++ new ∧ Attempts d b new ∧
      doneIn new = d.doneCalls b breg s.turns.length l := by
  induction l generalizing s with
  | nil => exact ⟨rfl,[],(List.append_nil _).symm,by simp [Attempts],rfl⟩
  | cons pc l ih =>
    obtain ⟨ev,hturns,htries,-,hdone⟩ := @turn_spec d b write breg pc s
    rw [Driver.run]
    dsimp only
    rw [if_neg (by simp [hd])]
    obtain ⟨hres,new,hnew,hatt,hall⟩ := ih (d.copyBack write breg pc.p pc.count
      (d.turn b write breg pc.p pc.lba pc.count s).2)
    rw [copyBack_turns,hturns] at hnew hall
    rw [List.length_append,List.length_singleton] at hall
    refine ⟨hres,ev :: new,by rw [hnew,List.append_assoc]; rfl,List.forall_mem_cons.mpr ⟨htries,hatt⟩,?_⟩
    rw [doneIn_cons,hdone,hall]
    rfl

end Runs

section Transfers
variable {d : Driver} {b : Bios} {breg : Option ℕ}

def Driver.blocks (d : Driver) (c : Call) : List ℕ := List.range' (c.lba d.hds d.sec) c.count

/-- The calls transfer the `n` blocks from `lba` on in order, each to the bounce buffer or to its place from `p` on. -/
def Transferred (d : Driver) (breg : Option ℕ) (p lba n : ℕ) (calls : List Call) : Prop :=
  calls.flatMap d.blocks = List.range' lba n ∧
    ∀ c ∈ calls, c.addr = breg.getD (p+d.ss*(c.lba d.hds d.sec-lba))

/-- A call asks for the piece. -/
def Driver.Right (d : Driver) (breg : Option ℕ) (pc : Chunk) (c : Call) : Prop :=
  c.lba d.hds d.sec = pc.lba ∧ c.count = pc.count ∧ c.addr = breg.getD pc.p

theorem chain_mem {ss p lba n : ℕ} {l : List Chunk} (hl : Chain ss p lba n l) : ∀ pc ∈ l,
    0 < pc.count ∧ lba ≤ pc.lba ∧ pc.lba+pc.count ≤ lba+n ∧ pc.p = p+ss*(pc.lba-lba) := by
  induction hl with
  | nil p lba => simp
  | @cons p lba x n l hx hl ih =>
    refine List.forall_mem_cons.mpr ⟨⟨hx,le_rfl,Nat.add_le_add_left (Nat.le_add_right x n) lba,by simp⟩,fun pc hpc => ?_⟩
    obtain ⟨hpos,hle,hend,hp⟩ := ih pc hpc
    have hsub : pc.lba-lba = x+(pc.lba-(lba+x)) := by omega
    refine ⟨hpos,by omega,by omega,?_⟩
    rw [hp,hsub,Nat.mul_add,Nat.mul_comm ss x,Nat.add_assoc]

theorem chain_last {ss p lba n : ℕ} {l : List Chunk} (hl : Chain ss p lba n l) (hn : 0 < n) :
    ∃ pc ∈ l, pc.lba+pc.count = lba+n := by
  induction hl with
  | nil p lba => exact absurd hn (lt_irrefl 0)
  | @cons p lba x n l hx hl ih =>
    obtain rfl | hpos := Nat.eq_zero_or_pos n
    · exact ⟨⟨p,lba,x⟩,List.mem_cons_self,rfl⟩
    · obtain ⟨pc,hpc,hend⟩ := ih hpos
      exact ⟨pc,List.mem_cons_of_mem _ hpc,by rw [hend,Nat.add_assoc]⟩

theorem pieces_size {fuel p dblk resid : ℕ} : ∀ pc ∈ d.pieces fuel p dblk resid,
    ∃ resid, 0 < resid ∧ pc.count = d.size pc.lba resid := by
  induction fuel generalizing p dblk resid with
  | zero => simp [Driver.pieces]
  | succ fuel ih =>
    rw [Driver.pieces]
    split_ifs with h₀
    · simp
    · exact List.forall_mem_cons.mpr ⟨⟨resid,Nat.pos_of_ne_zero h₀,rfl⟩,ih⟩

/-- Where each piece with a first block below `limit` can be transferred and ends by it, those before it are served. -/
theorem served_limit {p lba n limit k : ℕ} {l : List Chunk} (hl : Chain d.ss p lba n l)
    (hbelow : ∀ k, ∀ pc ∈ l, pc.lba < limit → d.Succeeds b breg k pc ∧ pc.lba+pc.count ≤ limit)
    (habove : ∀ k pc, (pc.lba = limit ∨ pc.lba = lba) → limit ≤ pc.lba → ¬ d.Succeeds b breg k pc) :
    Chain d.ss p lba (min n (limit-lba)) (d.served b breg k l) ∧
      (d.served b breg k l = l ↔ n ≤ limit-lba) := by
  induction hl generalizing k with
  | nil p lba =>
    rw [Driver.served,Nat.zero_min]
    exact ⟨.nil p lba,by simp⟩
  | @cons p lba x n l hx hl ih =>
    obtain ⟨hfirst,hbelow⟩ : (∀ k, lba < limit → d.Succeeds b breg k ⟨p,lba,x⟩ ∧ lba+x ≤ limit) ∧ _ :=
      ⟨fun k => hbelow k _ List.mem_cons_self,fun k pc hpc => hbelow k pc (List.mem_cons_of_mem _ hpc)⟩
    rw [Driver.served]
    by_cases hlt : lba < limit
    · obtain ⟨hs,hend⟩ := hfirst k hlt
      obtain ⟨hchain,hall⟩ := @ih (k+1) hbelow fun k pc hpc hge => habove k pc (Or.inl (by omega)) hge
      have hmin : min (x+n) (limit-lba) = x+min n (limit-(lba+x)) := by omega
      rw [if_pos hs,hmin]
      refine ⟨.cons hx hchain,?_⟩
      rw [List.cons.injEq,eq_self,true_and,hall]
      omega
    · rw [if_neg (habove k ⟨p,lba,x⟩ (Or.inr rfl) (Nat.le_of_not_lt hlt)),Nat.sub_eq_zero_of_le (Nat.le_of_not_lt hlt),
        Nat.min_zero]
      exact ⟨.nil p lba,iff_of_false (by simp) (by omega)⟩

theorem blocks_start {lba n : ℕ} {calls : List Call} (hall : calls.flatMap d.blocks = List.range' lba n) {c : Call}
    (hc : c ∈ calls) (hpos : 0 < c.count) : lba ≤ c.lba d.hds d.sec := by
  have hin : c.lba d.hds d.sec ∈ calls.flatMap d.blocks :=
    List.mem_flatMap.mpr ⟨c,hc,List.mem_range'_1.mpr ⟨le_rfl,by omega⟩⟩
  rw [hall,List.mem_range'_1] at hin
  exact hin.1

theorem transferred_iff {p lba n : ℕ} {l : List Chunk} (hl : Chain d.ss p lba n l)
    (hcount : ∀ pc ∈ l, ∃ c, d.call breg pc = some c ∧ c.count = pc.count) :
    Transferred d breg p lba n (l.flatMap fun pc => (d.call breg pc).toList) ↔
      ∀ pc ∈ l, ∀ c, d.call breg pc = some c → d.Right breg pc c := by
  induction hl with
  | nil p lba => simp [Transferred]
  | @cons p lba x n l hx hl ih =>
    obtain ⟨⟨c,hc,hlen⟩,hcount⟩ := List.forall_mem_cons.mp hcount
    have hpiece : (∀ c', d.call breg ⟨p,lba,x⟩ = some c' → d.Right breg ⟨p,lba,x⟩ c') ↔
        c.lba d.hds d.sec = lba ∧ c.addr = breg.getD p := by
      rw [hc]
      simp [Driver.Right,hlen]
    have hall : (c :: l.flatMap fun pc => (d.call breg pc).toList).flatMap d.blocks = List.range' lba (x+n) ↔
        c.lba d.hds d.sec = lba ∧
          (l.flatMap fun pc => (d.call breg pc).toList).flatMap d.blocks = List.range' (lba+x) n := by
      rw [List.flatMap_cons,← List.range'_append_1,Driver.blocks,hlen]
      constructor
      · intro h
        obtain ⟨hfirst,hrest⟩ := List.append_inj h (by simp)
        obtain h₀ | h₀ := (List.range'_inj.mp hfirst).2
        · exact absurd h₀ hx.ne'
        · exact ⟨h₀,hrest⟩
      · rintro ⟨hfirst,hrest⟩
        rw [hfirst,hrest]
    have hstart : (l.flatMap fun pc => (d.call breg pc).toList).flatMap d.blocks = List.range' (lba+x) n →
        ∀ c' ∈ l.flatMap (fun pc => (d.call breg pc).toList),
          p+x*d.ss+d.ss*(c'.lba d.hds d.sec-(lba+x)) = p+d.ss*(c'.lba d.hds d.sec-lba) := by
      intro hall c' hc'
      obtain ⟨pc,hpc,hin⟩ := List.mem_flatMap.mp hc'
      obtain ⟨c₁,hc₁,hlen₁⟩ := hcount pc hpc
      rw [hc₁,Option.toList_some,List.mem_singleton] at hin
      have hpos := (chain_mem hl pc hpc).1
      have hle := blocks_start hall hc' (by rw [hin]; omega)
      have hsub : c'.lba d.hds d.sec-lba = x+(c'.lba d.hds d.sec-(lba+x)) := by omega
      rw [hsub,Nat.mul_add,Nat.mul_comm d.ss x,Nat.add_assoc]
    rw [List.forall_mem_cons,hpiece,← ih hcount,List.flatMap_cons,hc,Option.toList_some,List.singleton_append]
    unfold Transferred
    rw [hall,List.forall_mem_cons]
    constructor
    · rintro ⟨⟨hfirst,hrest⟩,haddr,hplaces⟩
      rw [hfirst,Nat.sub_self,Nat.mul_zero,Nat.add_zero] at haddr
      exact ⟨⟨hfirst,haddr⟩,hrest,fun c' hc' => by rw [hplaces c' hc',hstart hrest c' hc']⟩
    · rintro ⟨⟨hfirst,haddr⟩,hrest,hplaces⟩
      refine ⟨⟨hfirst,hrest⟩,?_,fun c' hc' => by rw [hplaces c' hc',hstart hrest c' hc']⟩
      rw [hfirst,Nat.sub_self,Nat.mul_zero,Nat.add_zero,haddr]

theorem served_sub {k : ℕ} {l : List Chunk} : ∀ pc ∈ d.served b breg k l, pc ∈ l := by
  induction l generalizing k with
  | nil => simp [Driver.served]
  | cons pc l ih =>
    rw [Driver.served]
    split_ifs with hs
    · exact List.forall_mem_cons.mpr ⟨List.mem_cons_self,fun pc' h => List.mem_cons_of_mem _ (ih pc' h)⟩
    · simp

theorem served_some {k : ℕ} {l : List Chunk} : ∀ pc ∈ d.served b breg k l, ∃ c, d.call breg pc = some c := by
  induction l generalizing k with
  | nil => simp [Driver.served]
  | cons pc l ih =>
    rw [Driver.served]
    split_ifs with hs
    · exact List.forall_mem_cons.mpr ⟨Option.isSome_iff_exists.mp hs.1,ih⟩
    · simp

theorem served_eq {l : List Chunk} (h : ∀ k, ∀ pc ∈ l, d.Succeeds b breg k pc) (k : ℕ) : d.served b breg k l = l := by
  induction l generalizing k with
  | nil => rfl
  | cons pc l ih =>
    obtain ⟨hs,h⟩ : (∀ k, d.Succeeds b breg k pc) ∧ ∀ k, ∀ pc ∈ l, d.Succeeds b breg k pc :=
      ⟨fun k => h k pc List.mem_cons_self,fun k pc' hpc => h k pc' (List.mem_cons_of_mem _ hpc)⟩
    rw [Driver.served,if_pos (hs k),ih h]

theorem served_all {k : ℕ} {l : List Chunk} (h : d.served b breg k l = l) :
    d.doneCalls b breg k l = l.flatMap (fun pc => (d.call breg pc).toList) ∧
      ∀ pc ∈ l, ∃ c, d.call breg pc = some c := by
  induction l generalizing k with
  | nil => simp [Driver.doneCalls]
  | cons pc l ih =>
    rw [Driver.served] at h
    split_ifs at h with hs
    obtain ⟨hdone,hsome⟩ := ih (List.cons.inj h).2
    refine ⟨?_,List.forall_mem_cons.mpr ⟨Option.isSome_iff_exists.mp hs.1,hsome⟩⟩
    rw [Driver.doneCalls,if_pos hs,hdone,List.flatMap_cons]

/-- The calls that succeed transfer all blocks only if no piece fails and none is cut short. -/
theorem doneCalls_length {p lba n : ℕ} {l : List Chunk} (hl : Chain d.ss p lba n l)
    (hcount : ∀ pc ∈ l, ∀ c, d.call breg pc = some c → c.count ≤ pc.count) (k : ℕ) :
    ((d.doneCalls b breg k l).flatMap d.blocks).length ≤ n ∧
      (((d.doneCalls b breg k l).flatMap d.blocks).length = n →
        d.served b breg k l = l ∧ ∀ pc ∈ l, ∃ c, d.call breg pc = some c ∧ c.count = pc.count) := by
  induction hl generalizing k with
  | nil p lba => simp [Driver.doneCalls,Driver.served]
  | @cons p lba x n l hx hl ih =>
    obtain ⟨hfirst,hcount⟩ := List.forall_mem_cons.mp hcount
    obtain ⟨hle,hall⟩ := ih hcount (k+1)
    rw [Driver.doneCalls,Driver.served,List.flatMap_append,List.length_append]
    by_cases hs : d.Succeeds b breg k ⟨p,lba,x⟩
    · obtain ⟨c,hc⟩ := Option.isSome_iff_exists.mp hs.1
      have hc_le := hfirst c hc
      rw [if_pos hs,if_pos hs,hc,Option.toList_some,List.flatMap_singleton,Driver.blocks,List.length_range']
      refine ⟨by dsimp only at hc_le; omega,fun h => ?_⟩
      dsimp only at hc_le
      obtain ⟨hserved,hcounts⟩ := hall (by omega)
      refine ⟨by rw [hserved],List.forall_mem_cons.mpr ⟨⟨c,hc,?_⟩,hcounts⟩⟩
      dsimp only
      omega
    · rw [if_neg hs,if_neg hs,List.flatMap_nil,List.length_nil,Nat.zero_add]
      exact ⟨by omega,fun h => absurd h (by omega)⟩

theorem data_add {ss : ℕ} (hss : 0 < ss) (lba x j : ℕ) : b.data ss lba (x*ss+j) = b.data ss (lba+x) j := by
  rw [Bios.data,Bios.data,Nat.add_comm (x*ss),Nat.add_mul_div_right j x hss,Nat.add_mul_mod_self_right,Nat.add_assoc,
    Nat.add_comm (j/ss)]

/-- Beside from `w` bytes of the bounce buffer. -/
def Beside (breg : Option ℕ) (w a : ℕ) : Prop := ∀ r, breg = some r → a < r ∨ r+w ≤ a

/-- A turn that reads a piece puts it in its place, and leaves the rest of the memory alone. -/
theorem turn_mem {pc : Chunk} {c : Call} (hc : d.call breg pc = some c) (hright : d.Right breg pc c) (s : State)
    (hok : (d.turn b false breg pc.p pc.lba pc.count s).1 = true) :
    (∀ j < pc.count*d.ss, (d.copyBack false breg pc.p pc.count (d.turn b false breg pc.p pc.lba pc.count s).2).mem (pc.p+j) =
        b.data d.ss pc.lba j) ∧
      ∀ a, (a < pc.p ∨ pc.p+pc.count*d.ss ≤ a) → Beside breg (pc.count*d.ss) a →
        (d.copyBack false breg pc.p pc.count (d.turn b false breg pc.p pc.lba pc.count s).2).mem a = s.mem a := by
  obtain ⟨hlba,hcount,haddr⟩ := hright
  obtain ⟨mem,hmem⟩ : ∃ mem, (d.turn b false breg pc.p pc.lba pc.count s).2.mem = mem := ⟨_,rfl⟩
  have hturn : (d.turn b false breg pc.p pc.lba pc.count s).2.mem =
      (tries d b s.turns.length (d.call breg pc) 3 0).2.foldl (Event.apply d b false s.turns.length) s.mem := by
    cases breg <;> rfl
  obtain ⟨hout,hin⟩ := @tries_mem d b s.turns.length c 3 0 s.mem
  rw [← hc,← hturn,hmem,hcount,haddr] at hout hin
  have hin := hin hok
  rw [hlba] at hin
  cases breg with
  | none =>
    refine ⟨fun j hj => ?_,fun a ha _ => ?_⟩
    · rw [Driver.copyBack,hmem]
      exact hin j hj
    · rw [Driver.copyBack,hmem]
      exact hout a ha
  | some r =>
    have hback : (d.copyBack false (some r) pc.p pc.count (d.turn b false (some r) pc.p pc.lba pc.count s).2).mem =
        blit mem pc.p (pc.count*d.ss) fun j => mem (r+j) := by
      rw [← hmem]
      rfl
    rw [hback]
    refine ⟨fun j hj => ?_,fun a ha hapart => ?_⟩
    · rw [blit_inside (Nat.le_add_right pc.p j) (Nat.add_lt_add_left hj pc.p),Nat.add_sub_cancel_left]
      exact hin j hj
    · rw [blit_outside ha]
      exact hout a (hapart r rfl)

/-- A run that serves all pieces with the right calls puts what it reads in its place. -/
theorem run_mem (hss : 0 < d.ss) {p lba n w : ℕ} {l : List Chunk} (hl : Chain d.ss p lba n l)
    (hright : ∀ pc ∈ l, ∀ c, d.call breg pc = some c → d.Right breg pc c) (hw : ∀ pc ∈ l, pc.count*d.ss ≤ w)
    (hapart : ∀ j < n*d.ss, Beside breg w (p+j)) (s : State) (hserved : d.served b breg s.turns.length l = l) :
    (∀ j < n*d.ss, (d.run b false breg l s).2.mem (p+j) = b.data d.ss lba j) ∧
      ∀ a, (a < p ∨ p+n*d.ss ≤ a) → Beside breg w a → (d.run b false breg l s).2.mem a = s.mem a := by
  induction hl generalizing s with
  | nil p lba => exact ⟨fun j hj => absurd hj (by simp),fun a _ _ => rfl⟩
  | @cons p lba x n l hx hl ih =>
    rw [Nat.add_mul] at hapart ⊢
    obtain ⟨hfirst,hright⟩ := List.forall_mem_cons.mp hright
    obtain ⟨hw_le,hw⟩ := List.forall_mem_cons.mp hw
    rw [Driver.served] at hserved
    split_ifs at hserved with hs
    obtain ⟨c,hc⟩ := Option.isSome_iff_exists.mp hs.1
    obtain ⟨ev,hturns,-,hok,-⟩ := @turn_spec d b false breg ⟨p,lba,x⟩ s
    obtain ⟨hin,hout⟩ := turn_mem hc (hfirst c hc) s (hok.mpr hs)
    obtain ⟨s',hs'⟩ : ∃ s', d.copyBack false breg p x (d.turn b false breg p lba x s).2 = s' := ⟨_,rfl⟩
    have hrun : d.run b false breg (⟨p,lba,x⟩ :: l) s = d.run b false breg l s' := by
      rw [Driver.run]
      dsimp only
      rw [if_neg (by rw [hok.mpr hs]; simp),hs']
    have hlen : s'.turns.length = s.turns.length+1 := by
      rw [← hs',copyBack_turns,hturns,List.length_append,List.length_singleton]
    dsimp only at hin hout hw_le
    rw [hs'] at hin hout
    have hrest : ∀ j < n*d.ss, Beside breg w (p+x*d.ss+j) := fun j hj => by
      rw [Nat.add_assoc]
      exact hapart (x*d.ss+j) (Nat.add_lt_add_left hj _)
    obtain ⟨hin',hout'⟩ := ih hright hw hrest s' (by rw [hlen]; exact (List.cons.inj hserved).2)
    rw [hrun]
    refine ⟨fun j hj => ?_,fun a ha hap => ?_⟩
    · by_cases hjx : j < x*d.ss
      · rw [hout' (p+j) (Or.inl (Nat.add_lt_add_left hjx p)) (hapart j hj)]
        exact hin j hjx
      · obtain ⟨i,rfl⟩ := Nat.exists_eq_add_of_le (Nat.le_of_not_lt hjx)
        rw [← Nat.add_assoc,hin' i (by omega),data_add hss]
    · rw [hout' a (by omega) hap]
      refine hout a (by omega) fun r hr => ?_
      obtain h | h := hap r hr
      · exact Or.inl h
      · exact Or.inr (by omega)

theorem linear_vtop {a : ℕ} (ha : a < 2^20) : vtopseg a*16+vtopoff a = a := by
  have hlow : vtopoff a = a%16 := Nat.and_two_pow_sub_one_eq_mod a 4
  rw [vtopseg,hlow,Nat.shiftRight_eq_div_pow,Nat.mod_eq_of_lt (by omega)]
  omega

theorem vtop_lt (a : ℕ) : vtopseg a*16+vtopoff a < 2^20 := by
  have hlow : vtopoff a = a%16 := Nat.and_two_pow_sub_one_eq_mod a 4
  have hseg : vtopseg a < 2^16 := Nat.mod_lt _ (by norm_num)
  rw [hlow]
  omega

end Transfers

end Blub.Boot.Int13
