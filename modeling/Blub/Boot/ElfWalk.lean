import Blub.Boot.ElfSymbol
import Blub.Lib.Orbit

/-! When `lookup_symbol` of `load_elf.c` ends, for any words in the hash table of a module. -/
namespace Blub.Boot.Elf
open CStr Orbit

/-- What `elf_loadimage` takes of the words at `DT_HASH`: the two counts are not checked. -/
def SymbolTable.ofHashtab (hashtab : ℕ → ℕ) (symtab : ℕ → ElfSym) (strtab : ℕ → CStr) : SymbolTable where
  nbuckets := hashtab 0
  nchains := hashtab 1
  buckets b := hashtab (2+b)
  chains i := hashtab (2+hashtab 0+i)
  symtab := symtab
  strtab := strtab

/-- How a lookup ends: with its result, or at the division by the number of buckets. -/
inductive LookupEnd
  | done (r : Except ℤ ElfSym)
  | divideError

section Walk
variable (ef : SymbolTable) (name : CStr)

/-- `hash % nbuckets`, if there is a remainder. -/
def bucketOf (w : ℕ) : Option ℕ :=
  if ef.nbuckets = 0 then none else some ((elfHash w name.bytes).toNat%ef.nbuckets)

/-- `lookup_symbol` with its division. -/
def lookupRun (w fuel : ℕ) : Option LookupEnd :=
  match bucketOf ef name w with
  | none => some .divideError
  | some b => (lookupLoop ef name fuel (ef.buckets b)).map .done

/-- The lookup ends, and has not divided by zero. -/
def LookupEnds (w : ℕ) : Prop := ∃ fuel r, lookupRun ef name w fuel = some (.done r)

/-- The next symbol number of the walk, behind a symbol that has a name, and not the one that is looked for. -/
def nextSymbol (i : ℕ) : Option ℕ :=
  if i ≠ 0 ∧ i < ef.nchains ∧ (ef.symtab i).name ≠ 0 ∧ ef.nameOf i ≠ name then some (ef.chains i) else none

variable {ef name}

theorem lookupRun_eq (h : ef.nbuckets ≠ 0) (w fuel : ℕ) :
    lookupRun ef name w fuel = (lookupSymbol ef name w fuel).map .done := by
  rw [lookupRun,bucketOf,if_neg h]
  rfl

/-- One turn of the loop: it ends, or goes on with the next number. -/
theorem lookupLoop_succ (fuel i : ℕ) : (nextSymbol ef name i = none ∧ lookupLoop ef name (fuel+1) i ≠ none) ∨
    ∃ j, nextSymbol ef name i = some j ∧ lookupLoop ef name (fuel+1) i = lookupLoop ef name fuel j := by
  have hcmp : strcmp name (ef.strtab (ef.symtab i).name) = 0 ↔ ef.nameOf i = name := by
    rw [strcmp_eq_zero,eq_comm]
    rfl
  rw [lookupLoop,nextSymbol]
  simp only [hcmp]
  by_cases h₀ : i = 0
  · simp [h₀]
  by_cases hlt : ef.nchains ≤ i
  · simp [h₀,hlt]
  by_cases hun : (ef.symtab i).name = 0
  · simp [hun]
  by_cases hname : ef.nameOf i = name
  · simp only [hname,ne_eq,not_true_eq_false,and_false,if_false,if_true]
    refine Or.inl ⟨trivial,?_⟩
    split_ifs <;> simp
  · rw [if_neg h₀,if_neg hlt,if_neg hun,if_neg hname,if_pos ⟨h₀,not_le.mp hlt,hun,hname⟩]
    exact Or.inr ⟨_,rfl,rfl⟩

/-- The loop takes a turn for each number that the walk comes to. -/
theorem lookupLoop_none (fuel i : ℕ) :
    lookupLoop ef name fuel i = none ↔ orbit (nextSymbol ef name) i fuel ≠ none := by
  induction fuel generalizing i with
  | zero => simp [lookupLoop]
  | succ fuel ih =>
    obtain ⟨hnext,hend⟩ | ⟨j,hnext,hgo⟩ := @lookupLoop_succ ef name fuel i
    · have hstop : orbit (nextSymbol ef name) i (fuel+1) = none :=
        orbit_none ((orbit_succ orbit_zero).trans hnext) (Nat.le_add_left 1 fuel)
      simp [hend,hstop]
    · rw [hgo,ih,orbit_step hnext]

/-- A walk stays with its first number and with the chain words. -/
theorem nextSymbol_finite (i : ℕ) : ∃ S : Set ℕ, S.Finite ∧ ∀ n j, orbit (nextSymbol ef name) i n = some j → j ∈ S := by
  refine ⟨insert i (ef.chains '' Set.Iio ef.nchains),((Set.finite_Iio _).image _).insert i,fun n j hj => ?_⟩
  cases n with
  | zero => exact Or.inl (Option.some.inj hj).symm
  | succ n =>
    obtain ⟨k,-,hk⟩ := Option.bind_eq_some_iff.mp hj
    rw [nextSymbol] at hk
    split_ifs at hk with h
    exact Or.inr ⟨k,h.2.1,Option.some.inj hk⟩

end Walk

/-- A lookup ends without a division by zero exactly when there is a bucket, and the walk from the bucket of the name
does not come back to a symbol number. -/
theorem lookupEnds_iff (ef : SymbolTable) (name : CStr) (w : ℕ) : LookupEnds ef name w ↔
    ef.nbuckets ≠ 0 ∧
      NoReturn (nextSymbol ef name) (ef.buckets ((elfHash w name.bytes).toNat%ef.nbuckets)) := by
  by_cases h₀ : ef.nbuckets = 0
  · simp [LookupEnds,lookupRun,bucketOf,h₀]
  obtain ⟨S,hS,hin⟩ := @nextSymbol_finite ef name (ef.buckets ((elfHash w name.bytes).toNat%ef.nbuckets))
  rw [← orbit_ends_iff hS hin]
  simp only [LookupEnds,lookupRun_eq h₀,lookupSymbol,Option.map_eq_some_iff,LookupEnd.done.injEq,exists_eq_right,ne_eq,
    h₀,not_false_eq_true,true_and]
  refine exists_congr fun fuel => ?_
  rw [← Option.ne_none_iff_exists',ne_eq,lookupLoop_none,not_not]

/-- One bucket, and a symbol whose chain word is its own number. -/
def selfChain : SymbolTable :=
  .ofHashtab (fun k => [1,2,1,0,1].getD k 0) (fun _ => ⟨1,4096,16,18,0,1⟩) fun _ => carryName

/-- Another name is looked for without end on a chain that is a circle, and with no bucket there is a division by zero. -/
theorem lookup_circle : ¬LookupEnds selfChain shortName 64 ∧
    ¬LookupEnds (.ofHashtab (fun _ => 0) (fun _ => ⟨0,0,0,0,0,0⟩) fun _ => shortName) shortName 64 := by
  constructor
  · rintro ⟨fuel,r,hrun⟩
    have hnext : nextSymbol selfChain shortName 1 = some 1 := by decide
    have hloop : lookupLoop selfChain shortName fuel 1 = none :=
      (lookupLoop_none fuel 1).mpr (orbit_returns Nat.zero_lt_one orbit_zero ((orbit_succ orbit_zero).trans hnext) fuel)
    have hbucket : bucketOf selfChain shortName 64 = some 0 := congrArg some (Nat.mod_one _)
    have hstart : selfChain.buckets 0 = 1 := rfl
    rw [lookupRun,hbucket] at hrun
    dsimp only at hrun
    rw [hstart,hloop] at hrun
    cases hrun
  · rintro ⟨fuel,r,hrun⟩
    cases hrun

end Blub.Boot.Elf
