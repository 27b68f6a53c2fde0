import Blub.Boot.ParsePieces

/-! The tokens of a line, and when `parse` gets them right: within its buffer and its array, and without losing any. -/
namespace Blub.Boot

section Tokens

/-- What is read before, between and behind the white space. -/
def runs : List Piece → List (List UInt8)
  | [] => [[]]
  | .byte c :: ps => (runs ps).modifyHead (c :: ·)
  | .value v :: ps => (runs ps).modifyHead (v ++ ·)
  | .gap :: ps => [] :: runs ps

def tokens (ps : List Piece) : List (List UInt8) := (runs ps).filter (· ≠ [])

/-- What is read behind the last white space. -/
def lastRun (ps : List Piece) : List UInt8 := (runs ps).getLastD []

attribute [local grind =] runs

/-! The same with `acc` read before. -/

def tokensFrom (acc : List UInt8) (ps : List Piece) : List (List UInt8) :=
  ((runs ps).modifyHead (acc ++ ·)).filter (· ≠ [])

/-- The tokens that white space follows. -/
def closedFrom (acc : List UInt8) (ps : List Piece) : List (List UInt8) :=
  ((runs ps).modifyHead (acc ++ ·)).dropLast.filter (· ≠ [])

def lastFrom (acc : List UInt8) (ps : List Piece) : List UInt8 := ((runs ps).modifyHead (acc ++ ·)).getLastD []

variable (acc v : List UInt8) (c : UInt8) (ps : List Piece)

theorem modifyHead_ne_nil {l : List (List UInt8)} (f : List UInt8 → List UInt8) (h : l ≠ []) : l.modifyHead f ≠ [] := by
  cases l with
  | nil => exact absurd rfl h
  | cons r rs => exact List.cons_ne_nil _ _

theorem runs_ne_nil : runs ps ≠ [] := by
  induction ps with
  | nil => exact List.cons_ne_nil _ _
  | cons x ps ih =>
    cases x with
    | byte c => exact modifyHead_ne_nil _ ih
    | value v => exact modifyHead_ne_nil _ ih
    | gap => exact List.cons_ne_nil _ _

theorem modifyHead_nil_append (l : List (List UInt8)) : l.modifyHead ([] ++ ·) = l := by cases l <;> rfl

theorem tokensFrom_nil : tokensFrom [] ps = tokens ps := by rw [tokensFrom,modifyHead_nil_append]; rfl

theorem lastFrom_nil : lastFrom [] ps = lastRun ps := by rw [lastFrom,modifyHead_nil_append]; rfl

theorem runs_byte : (runs (.byte c :: ps)).modifyHead (acc ++ ·) = (runs ps).modifyHead ((acc ++ [c]) ++ ·) := by
  rw [runs]
  cases runs ps with
  | nil => rfl
  | cons r rs => simp

theorem runs_value : (runs (.value v :: ps)).modifyHead (acc ++ ·) = (runs ps).modifyHead ((acc ++ v) ++ ·) := by
  rw [runs]
  cases runs ps with
  | nil => rfl
  | cons r rs => simp

theorem runs_gap : (runs (.gap :: ps)).modifyHead (acc ++ ·) = acc :: (runs ps).modifyHead ([] ++ ·) := by
  rw [runs,List.modifyHead_cons,modifyHead_nil_append,List.append_nil]

theorem tokensFrom_byte : tokensFrom acc (.byte c :: ps) = tokensFrom (acc ++ [c]) ps := by
  rw [tokensFrom,runs_byte,tokensFrom]

theorem tokensFrom_value : tokensFrom acc (.value v :: ps) = tokensFrom (acc ++ v) ps := by
  rw [tokensFrom,runs_value,tokensFrom]

theorem tokensFrom_gap : tokensFrom acc (.gap :: ps) = [acc].filter (· ≠ []) ++ tokensFrom [] ps := by
  rw [tokensFrom,runs_gap,← List.singleton_append,List.filter_append,tokensFrom]

theorem tokensFrom_end : tokensFrom acc [] = [acc].filter (· ≠ []) := by
  rw [tokensFrom,runs,List.modifyHead_cons,List.append_nil]

theorem closedFrom_byte : closedFrom acc (.byte c :: ps) = closedFrom (acc ++ [c]) ps := by
  rw [closedFrom,runs_byte,closedFrom]

theorem closedFrom_value : closedFrom acc (.value v :: ps) = closedFrom (acc ++ v) ps := by
  rw [closedFrom,runs_value,closedFrom]

theorem closedFrom_gap : closedFrom acc (.gap :: ps) = [acc].filter (· ≠ []) ++ closedFrom [] ps := by
  have hne := modifyHead_ne_nil ([] ++ ·) (runs_ne_nil ps)
  rw [closedFrom,runs_gap,List.dropLast_cons_of_ne_nil hne,← List.singleton_append,List.filter_append,closedFrom]

theorem closedFrom_end : closedFrom acc [] = [] := by rw [closedFrom,runs]; rfl

theorem tokensFrom_eq_closedFrom : tokensFrom acc ps = closedFrom acc ps ++ [lastFrom acc ps].filter (· ≠ []) := by
  have hne := modifyHead_ne_nil (acc ++ ·) (runs_ne_nil ps)
  rw [tokensFrom,closedFrom,lastFrom,← List.filter_append]
  congr 1
  generalize (runs ps).modifyHead (acc ++ ·) = l at hne
  rw [List.getLastD_eq_getLast?,List.getLast?_eq_some_getLast hne,Option.getD_some,List.dropLast_append_getLast hne]

/-- What was read is the start of a token. -/
theorem exists_tokensFrom {acc : List UInt8} (h : acc ≠ []) : ∃ t ∈ tokensFrom acc ps, acc.length ≤ t.length := by
  rw [tokensFrom]
  cases hr : runs ps with
  | nil => exact absurd hr (runs_ne_nil ps)
  | cons r rs =>
    refine ⟨acc ++ r,?_,by rw [List.length_append]; omega⟩
    rw [List.modifyHead_cons,List.mem_filter]
    exact ⟨List.mem_cons_self,by simp [h]⟩

end Tokens

section Bounds
variable {e : Ending} {ps : List Piece} {i : ℕ} {buf : List UInt8} {args : List (List UInt8)}

/-- The running tally of a line that `parse` handles within its limits: no variable takes a token past the buffer and
there are not 20 tokens. `i` bytes of a token are in the buffer and `n` tokens are stored. A value that fills the buffer
by itself is `cut`; that is made up for if `parse` fails later on, as is any overflow if the next thing is the end of a
line with a variable that is not closed. -/
def Bounded (e : Ending) : List Piece → Bool → ℕ → ℕ → Prop
  | [], cut, i, n =>
    match e with
    | .unclosed => True
    | .dangling => cut = false ∧ n < maxargs
    | .done => if i = 0 then cut = false ∧ n < maxargs else maxargs ≤ n ∨ (cut = false ∧ n+1 < maxargs)
  | .byte _ :: ps, cut, i, n => i = parseBufsize-1 ∨ Bounded e ps cut (i+1) n
  | .value v :: ps, cut, i, n =>
    if i+v.length < parseBufsize then Bounded e ps cut (i+v.length) n
    else if i = 0 then Bounded e ps true (parseBufsize-1) n
    else ps = [] ∧ e = .unclosed
  | .gap :: ps, cut, i, n => if i = 0 then Bounded e ps cut 0 n else maxargs ≤ n ∨ Bounded e ps cut 0 (n+1)

attribute [local grind =] Bounded

/-- Past the end of the buffer only a line that ends at once makes `parse` fail. -/
theorem feed_past (hi : parseBufsize ≤ i) : feed e ps i buf args = .fail ↔ ps = [] ∧ e = .unclosed := by
  have h₀ : i ≠ 0 := by
    rw [parseBufsize] at hi
    omega
  have hlast : i ≠ parseBufsize-1 := by
    rw [parseBufsize] at hi ⊢
    omega
  cases ps with
  | nil =>
    cases e with
    | done => simp [feed,h₀,hi]
    | dangling =>
      rw [feed]
      split_ifs <;> simp
    | unclosed => simp [feed]
  | cons x ps => cases x <;> simp [feed,h₀,hi,hlast]

/-- Once a token was cut, `parse` has to fail. -/
theorem feed_cut (hi : i < parseBufsize) : feed e ps i buf args = .fail ↔ Bounded e ps true i args.length := by
  induction ps generalizing i buf args with
  | nil =>
    cases e with
    | done =>
      rw [feed,Bounded]
      by_cases h₀ : i = 0
      · rw [if_pos h₀,if_pos h₀]
        split_ifs <;> simp
      · rw [if_neg h₀,if_neg h₀,if_neg hi.not_ge]
        split_ifs <;> simp_all
    | dangling =>
      rw [feed,Bounded]
      split_ifs <;> simp
    | unclosed => simp [feed,Bounded]
  | cons x ps ih =>
    cases x with
    | byte c =>
      rw [feed,Bounded]
      by_cases hfull : i = parseBufsize-1
      · rw [if_pos hfull]
        exact iff_of_true rfl (.inl hfull)
      · rw [if_neg hfull,if_neg hi.not_ge,or_iff_right hfull]
        exact ih (by rw [parseBufsize] at *; omega)
    | value v =>
      rw [feed,Bounded,if_neg hi.not_ge]
      by_cases hfit : i+v.length < parseBufsize
      · rw [if_pos hfit,Nat.min_eq_left (by rw [parseBufsize] at *; omega)]
        exact ih hfit
      · rw [if_neg hfit]
        by_cases h₀ : i = 0
        · rw [if_pos h₀,h₀,Nat.min_eq_right (by rw [parseBufsize] at *; omega),Nat.zero_add]
          exact ih (by decide)
        · rw [if_neg h₀]
          exact feed_past (by rw [parseBufsize] at *; omega)
    | gap =>
      rw [feed,Bounded]
      by_cases h₀ : i = 0
      · rw [if_pos h₀,if_pos h₀]
        exact ih (by decide)
      · rw [if_neg h₀,if_neg h₀,if_neg hi.not_ge]
        by_cases hargs : maxargs ≤ args.length
        · rw [if_pos hargs]
          exact iff_of_true rfl (.inl hargs)
        · rw [if_neg hargs,or_iff_right hargs,ih (by decide),List.length_append,List.length_singleton]

/-- A token is too long, or there are too many behind `n` that are stored. -/
def Exceeds (n : ℕ) (l : List (List UInt8)) : Prop := (∃ t ∈ l, parseBufsize ≤ t.length) ∨ maxargs < n+l.length

theorem exceeds_cons {n : ℕ} {t : List UInt8} {l : List (List UInt8)} (h : t.length < parseBufsize) :
    Exceeds n (t :: l) ↔ Exceeds (n+1) l := by
  have hlen : n+(t :: l).length = n+1+l.length := by
    rw [List.length_cons]
    omega
  simp only [Exceeds,List.mem_cons,exists_eq_or_imp,hlen]
  rw [or_iff_right h.not_ge]

theorem not_exceeds_nil {n : ℕ} (h : n ≤ maxargs) : ¬ Exceeds n [] := by
  rintro (⟨t,ht,-⟩ | hlong)
  · cases ht
  · rw [List.length_nil] at hlong
    omega

theorem filter_nil : [([] : List UInt8)].filter (· ≠ []) = [] := rfl

theorem filter_cons {acc : List UInt8} (h : acc ≠ []) : [acc].filter (· ≠ []) = [acc] := by simp [h]

/-- The pieces are handled within the limits, with `acc` read of a token. -/
def FeedsWithin (e : Ending) (ps : List Piece) (acc buf : List UInt8) (args : List (List UInt8)) : Prop :=
  feed e ps acc.length buf args ≠ .fault ∧
    (Exceeds args.length (tokensFrom acc ps) → feed e ps acc.length buf args = .fail)

theorem FeedsWithin.of_fail {acc : List UInt8} (h : feed e ps acc.length buf args = .fail) :
    FeedsWithin e ps acc buf args := ⟨by rw [h]; nofun,fun _ => h⟩

theorem feedsWithin_iff_fail {acc : List UInt8} (h : Exceeds args.length (tokensFrom acc ps)) :
    FeedsWithin e ps acc buf args ↔ feed e ps acc.length buf args = .fail := ⟨fun hw => hw.2 h,.of_fail⟩

/-- At the end of the line. -/
theorem feedsWithin_end (acc : List UInt8) (hi : acc.length < parseBufsize) (hn : args.length ≤ maxargs) :
    FeedsWithin e [] acc buf args ↔ Bounded e [] false acc.length args.length := by
  rw [FeedsWithin,tokensFrom_end]
  cases e with
  | unclosed => exact iff_of_true ⟨by rw [feed]; nofun,fun _ => rfl⟩ trivial
  | dangling =>
    simp only [feed,Bounded,true_and]
    by_cases hargs : maxargs ≤ args.length
    · rw [if_pos hargs]
      exact iff_of_false (fun h => h.1 rfl) hargs.not_gt
    · rw [if_neg hargs]
      refine iff_of_true ⟨by nofun,fun hex => absurd hex ?_⟩ (not_le.mp hargs)
      by_cases h₀ : acc = []
      · rw [h₀,filter_nil]
        exact not_exceeds_nil hn
      · rw [filter_cons h₀,exceeds_cons hi]
        exact not_exceeds_nil (not_le.mp hargs)
  | done =>
    simp only [feed,Bounded,true_and]
    by_cases h₀ : acc = []
    · rw [h₀,filter_nil,List.length_nil,if_pos rfl,if_pos rfl]
      by_cases hargs : maxargs ≤ args.length
      · rw [if_pos hargs]
        exact iff_of_false (fun h => h.1 rfl) hargs.not_gt
      · rw [if_neg hargs]
        exact iff_of_true ⟨by nofun,fun hex => absurd hex (not_exceeds_nil hn)⟩ (not_le.mp hargs)
    · have hlen : acc.length ≠ 0 := fun h => h₀ (List.length_eq_zero_iff.mp h)
      rw [filter_cons h₀,exceeds_cons hi,if_neg hlen,if_neg hlen,if_neg hi.not_ge]
      by_cases hargs : maxargs ≤ args.length
      · rw [if_pos hargs]
        exact iff_of_true ⟨by nofun,fun _ => rfl⟩ (.inl hargs)
      · rw [if_neg hargs,or_iff_right hargs]
        by_cases hlast : maxargs ≤ args.length+1
        · rw [if_pos hlast]
          exact iff_of_false (fun h => h.1 rfl) hlast.not_gt
        · rw [if_neg hlast]
          exact iff_of_true ⟨by nofun,fun hex => absurd hex (not_exceeds_nil (not_le.mp hargs))⟩ (not_le.mp hlast)

theorem feed_within (acc : List UInt8) (hi : acc.length < parseBufsize) (hn : args.length ≤ maxargs) :
    FeedsWithin e ps acc buf args ↔ Bounded e ps false acc.length args.length := by
  induction ps generalizing acc buf args with
  | nil => exact feedsWithin_end acc hi hn
  | cons x ps ih =>
    cases x with
    | byte c =>
      rw [Bounded]
      by_cases hfull : acc.length = parseBufsize-1
      · exact iff_of_true (.of_fail (by rw [feed,if_pos hfull])) (.inl hfull)
      · have hnext : FeedsWithin e ps (acc ++ [c]) (buf ++ [c]) args ↔
            Bounded e ps false (acc ++ [c]).length args.length := ih (acc ++ [c])
          (by rw [List.length_append,List.length_singleton]; rw [parseBufsize] at *; omega) hn
        rw [or_iff_right hfull]
        rw [FeedsWithin,List.length_append,List.length_singleton] at hnext
        rw [FeedsWithin,tokensFrom_byte,feed,if_neg hfull,if_neg hi.not_ge]
        exact hnext
    | value v =>
      have hfeed : feed e (.value v :: ps) acc.length buf args =
          feed e ps (acc.length+min v.length (parseBufsize-1)) (buf ++ v.take (parseBufsize-(acc.length+1))) args := by
        rw [feed,if_neg hi.not_ge]
      rw [Bounded]
      by_cases hfit : acc.length+v.length < parseBufsize
      · have hnext : FeedsWithin e ps (acc ++ v) (buf ++ v.take (parseBufsize-(acc.length+1))) args ↔
            Bounded e ps false (acc ++ v).length args.length := ih (acc ++ v)
          (by rw [List.length_append]; exact hfit) hn
        rw [if_pos hfit]
        rw [FeedsWithin,List.length_append] at hnext
        rw [FeedsWithin,tokensFrom_value,hfeed,Nat.min_eq_left (by rw [parseBufsize] at *; omega)]
        exact hnext
      · have hne : acc ++ v ≠ [] := by
          intro h
          rw [← List.length_append,h] at hfit
          exact hfit (by decide)
        obtain ⟨t,ht,hlong⟩ := exists_tokensFrom ps hne
        rw [List.length_append] at hlong
        rw [if_neg hfit,feedsWithin_iff_fail (by rw [tokensFrom_value]; exact .inl ⟨t,ht,by omega⟩),hfeed]
        by_cases h₀ : acc.length = 0
        · rw [if_pos h₀,h₀,Nat.min_eq_right (by rw [parseBufsize] at *; omega),Nat.zero_add]
          exact feed_cut (by decide)
        · rw [if_neg h₀]
          exact feed_past (by rw [parseBufsize] at *; omega)
    | gap =>
      rw [Bounded,FeedsWithin,tokensFrom_gap]
      by_cases h₀ : acc = []
      · rw [h₀,filter_nil,List.nil_append,List.length_nil,feed,if_pos rfl,if_pos rfl]
        exact ih [] (by decide) hn
      · have hlen : acc.length ≠ 0 := fun h => h₀ (List.length_eq_zero_iff.mp h)
        rw [filter_cons h₀,List.singleton_append,exceeds_cons hi,feed,if_neg hlen,if_neg hlen,if_neg hi.not_ge]
        by_cases hargs : maxargs ≤ args.length
        · rw [if_pos hargs]
          exact iff_of_true ⟨by nofun,fun _ => rfl⟩ (.inl hargs)
        · have hnext : FeedsWithin e ps [] [] (args ++ [cstr buf]) ↔
              Bounded e ps false ([] : List UInt8).length (args ++ [cstr buf]).length := ih [] (by decide)
            (by rw [List.length_append,List.length_singleton]; omega)
          rw [if_neg hargs,or_iff_right hargs]
          rw [FeedsWithin,List.length_append,List.length_singleton,List.length_nil] at hnext
          exact hnext

end Bounds

section Line
variable (getenv : List UInt8 → Option (List UInt8)) (str : List UInt8)

/-- `parse` stays within its buffer and its array, refuses what does not fit, and ends, in at most two turns of its loop
for a byte of the line. -/
structure ParsesWithin : Prop where
  inside : parse getenv str ≠ .fault
  limits : Exceeds 0 (tokens (pieces getenv str).1) → parse getenv str = .fail
  ends : ∀ turns, parseLoop getenv (2*(resolved str).length+1+turns) ⟨.str,0,0,0,[],[]⟩ (resolved str) =
    parse getenv str

theorem parse_eq : parse getenv str = feed (pieces getenv str).2 (pieces getenv str).1 0 [] [] :=
  parse_eq_feed str 0

/-- `parse` keeps to its limits exactly on the lines whose tally does. -/
theorem parse_within_iff : ParsesWithin getenv str ↔ Bounded (pieces getenv str).2 (pieces getenv str).1 false 0 0 := by
  have hwithin : FeedsWithin (pieces getenv str).2 (pieces getenv str).1 [] [] [] ↔
    Bounded (pieces getenv str).2 (pieces getenv str).1 false ([] : List UInt8).length ([] : List (List UInt8)).length :=
      feed_within [] (by decide) (by decide)
  rw [FeedsWithin,tokensFrom_nil,List.length_nil,List.length_nil,← parse_eq] at hwithin
  rw [← hwithin]
  refine ⟨fun h => ⟨h.inside,h.limits⟩,fun h => ⟨h.1,h.2,fun turns => ?_⟩⟩
  rw [parse_eq_feed,parse_eq]

end Line

/-- `x` is a variable with a value of 600 bytes. -/
def longEnv (name : List UInt8) : Option (List UInt8) := if name = [120] then some (List.replicate 600 97) else none

/-- The twentieth token puts the NULL behind the array, and a second long value writes behind the buffer. -/
theorem parse_overruns :
    parse (fun _ => none) ([chSpace].intercalate (List.replicate 20 [97])) = .fault ∧
    parse longEnv [36,123,120,125,36,123,120,125] = .fault ∧
    ¬ ParsesWithin (fun _ => none) ([chSpace].intercalate (List.replicate 20 [97])) ∧
    ¬ ParsesWithin longEnv [36,123,120,125,36,123,120,125] := by
  have htwenty : parse (fun _ => none) ([chSpace].intercalate (List.replicate 20 [97])) = .fault := by decide
  have hlong : parse longEnv [36,123,120,125,36,123,120,125] = .fault := by decide +kernel
  exact ⟨htwenty,hlong,fun h => h.inside htwenty,fun h => h.inside hlong⟩

section Grammar
variable {getenv : List UInt8 → Option (List UInt8)} {e : Ending} {ps : List Piece}

/-- The pieces of the grammar: a line that ends behind a `$` or an opening delimiter names the variable without a
name. -/
def grammarPieces (getenv : List UInt8 → Option (List UInt8)) (str : List UInt8) : List Piece :=
  (pieces getenv str).1 ++ if (pieces getenv str).2 = .dangling then lookupPiece getenv [] else []

def grammarTokens (getenv : List UInt8 → Option (List UInt8)) (str : List UInt8) : List (List UInt8) :=
  tokens (grammarPieces getenv str)

/-- What a piece adds to a token. -/
def Piece.bytes : Piece → List UInt8
  | .byte c => [c]
  | .value v => v
  | .gap => []

def NoNul (ps : List Piece) : Prop := ∀ x ∈ ps, (0 : UInt8) ∉ x.bytes

attribute [local grind =] Piece.bytes

theorem zero_notMem_cstr (s : List UInt8) : (0 : UInt8) ∉ cstr s := by
  intro h
  have := List.mem_takeWhile_imp h
  simp at this

theorem noNul_prepend {ps : List Piece} {r : List Piece × Ending} (h : NoNul ps) (hr : NoNul r.1) :
    NoNul (prepend ps r).1 := by
  intro x hx
  exact (List.mem_append.mp hx).elim (h x) (hr x)

theorem noNul_lookupPiece (name : List UInt8) : NoNul (lookupPiece getenv name) := by
  unfold lookupPiece
  cases getenv name with
  | none => exact fun x hx => nomatch hx
  | some v =>
    intro x hx
    rw [List.mem_singleton.mp hx]
    exact zero_notMem_cstr v

theorem noNul_piecesGo (n : ℕ) (quote : UInt8) (p : List UInt8) (h : (0 : UInt8) ∉ p) :
    NoNul (piecesGo getenv n quote p).1 := by
  have hnil : NoNul [] := fun x hx => nomatch hx
  have hbyte : ∀ c : UInt8, c ≠ 0 → NoNul [.byte c] := by
    intro c hc x hx
    rw [List.mem_singleton.mp hx]
    exact fun h₀ => hc (List.mem_singleton.mp h₀).symm
  have hsub : ∀ {l p : List UInt8}, List.Sublist l p → (0 : UInt8) ∉ p → (0 : UInt8) ∉ l := fun hs hp hl => hp (hs.subset hl)
  induction n generalizing quote p with
  | zero => cases p <;> exact hnil
  | succ n ih =>
    cases p with
    | nil => exact hnil
    | cons c p =>
      obtain ⟨hc,hp⟩ := not_or.mp (mt List.mem_cons.mpr h)
      unfold piecesGo
      split_ifs with h₁ h₂ h₃ hq h₄ h₅
      · exact hnil
      · cases p with
        | nil => exact absurd rfl h₂.2
        | cons d p =>
          obtain ⟨hd,hp⟩ := not_or.mp (mt List.mem_cons.mpr hp)
          exact noNul_prepend (hbyte d (Ne.symm hd)) (ih _ _ hp)
      · exact ih _ _ hp
      · exact ih _ _ hp
      · refine noNul_prepend (fun x hx => ?_) (ih _ _ hp)
        rw [List.mem_singleton.mp hx]
        exact List.not_mem_nil
      · cases p with
        | nil => exact hnil
        | cons d p =>
          rw [dollarPieces]
          split_ifs with hd hend hmem
          · exact hnil
          · refine noNul_prepend (noNul_lookupPiece _) (ih _ _ (hsub ?_ hp))
            exact (List.drop_sublist 1 _).trans ((List.dropWhile_sublist _).trans (List.sublist_cons_self d p))
          · exact hnil
          · exact noNul_prepend (noNul_lookupPiece _) (ih _ _ (hsub (List.dropWhile_sublist _) hp))
      · exact noNul_prepend (hbyte c (Ne.symm hc)) (ih _ _ hp)

/-- What is stored when nothing overflows: all tokens, or at a dangling end those that white space follows. -/
def stored (e : Ending) (acc : List UInt8) (ps : List Piece) : List (List UInt8) :=
  if e = .dangling then closedFrom acc ps else tokensFrom acc ps

theorem stored_byte (acc : List UInt8) (c : UInt8) : stored e acc (.byte c :: ps) = stored e (acc ++ [c]) ps := by
  simp only [stored,closedFrom_byte,tokensFrom_byte]

theorem stored_value (acc v : List UInt8) : stored e acc (.value v :: ps) = stored e (acc ++ v) ps := by
  simp only [stored,closedFrom_value,tokensFrom_value]

theorem stored_gap (acc : List UInt8) : stored e acc (.gap :: ps) = [acc].filter (· ≠ []) ++ stored e [] ps := by
  simp only [stored,closedFrom_gap,tokensFrom_gap]
  split_ifs <;> rfl

theorem feed_ok_end (acc : List UInt8) (args : List (List UInt8)) {argv : List (List UInt8)} (h₀ : (0 : UInt8) ∉ acc)
    (h : feed e [] acc.length acc args = .ok argv) : argv = args ++ stored e acc [] := by
  unfold stored
  cases e with
  | unclosed => cases h
  | dangling =>
    simp only [feed] at h
    split_ifs at h
    rw [if_pos rfl,closedFrom_end,List.append_nil]
    exact (Parsed.ok.inj h).symm
  | done =>
    rw [if_neg (by nofun),tokensFrom_end]
    simp only [feed] at h
    split_ifs at h with hi
    · rw [List.length_eq_zero_iff.mp hi,filter_nil,List.append_nil]
      exact (Parsed.ok.inj h).symm
    · rw [filter_cons fun hn => hi (List.length_eq_zero_iff.mpr hn)]
      rw [cstr_of_notMem h₀] at h
      exact (Parsed.ok.inj h).symm

/-- What `parse` stores of pieces that fit; `extra` may still follow the last of them. -/
theorem feed_ok {extra : List Piece} (acc : List UInt8) (args : List (List UInt8)) {argv : List (List UInt8)}
    (hshort : ∀ t ∈ tokensFrom acc (ps ++ extra), t.length < parseBufsize) (hnul : NoNul ps) (h₀ : (0 : UInt8) ∉ acc)
    (h : feed e ps acc.length acc args = .ok argv) : argv = args ++ stored e acc ps := by
  induction ps generalizing acc args with
  | nil => exact feed_ok_end acc args h₀ h
  | cons x ps ih =>
    obtain ⟨hx,hrest⟩ := List.forall_mem_cons.mp hnul
    rw [List.cons_append] at hshort
    cases x with
    | byte c =>
      rw [tokensFrom_byte] at hshort
      simp only [feed] at h
      split_ifs at h
      rw [stored_byte]
      refine ih (acc ++ [c]) args hshort hrest ?_ (by rw [List.length_append]; exact h)
      exact fun hm => (List.mem_append.mp hm).elim h₀ hx
    | value v =>
      rw [tokensFrom_value] at hshort
      have hfit : acc.length+v.length < parseBufsize := by
        by_cases hne : acc ++ v = []
        · rw [← List.length_append,hne]
          decide
        · obtain ⟨t,ht,hlong⟩ := exists_tokensFrom (ps ++ extra) hne
          rw [List.length_append] at hlong
          exact hlong.trans_lt (hshort t ht)
      simp only [feed] at h
      split_ifs at h
      rw [Nat.min_eq_left (by rw [parseBufsize] at *; omega),List.take_of_length_le (by rw [parseBufsize] at *; omega)] at h
      rw [stored_value]
      refine ih (acc ++ v) args hshort hrest ?_ (by rw [List.length_append]; exact h)
      exact fun hm => (List.mem_append.mp hm).elim h₀ hx
    | gap =>
      rw [tokensFrom_gap] at hshort
      have hshort : ∀ t ∈ tokensFrom [] (ps ++ extra), t.length < parseBufsize :=
        fun t ht => hshort t (List.mem_append_right _ ht)
      simp only [feed] at h
      rw [stored_gap]
      split_ifs at h with hi
      · obtain rfl := List.length_eq_zero_iff.mp hi
        rw [filter_nil]
        exact ih [] args hshort hrest List.not_mem_nil h
      · rw [cstr_of_notMem h₀] at h
        rw [filter_cons fun hn => hi (List.length_eq_zero_iff.mpr hn),← List.append_assoc]
        exact ih [] (args ++ [acc]) hshort hrest List.not_mem_nil h

theorem closedFrom_append {extra : List Piece} (hx : ∀ x ∈ extra, x ≠ .gap) (acc : List UInt8) :
    closedFrom acc (ps ++ extra) = closedFrom acc ps := by
  induction ps generalizing acc with
  | nil =>
    rw [List.nil_append,closedFrom_end]
    induction extra generalizing acc with
    | nil => exact closedFrom_end acc
    | cons x extra ih =>
      obtain ⟨hg,hrest⟩ := List.forall_mem_cons.mp hx
      cases x with
      | byte c => rw [closedFrom_byte,ih hrest]
      | value v => rw [closedFrom_value,ih hrest]
      | gap => exact absurd rfl hg
  | cons x ps ih =>
    rw [List.cons_append]
    cases x with
    | byte c => rw [closedFrom_byte,closedFrom_byte,ih]
    | value v => rw [closedFrom_value,closedFrom_value,ih]
    | gap => rw [closedFrom_gap,closedFrom_gap,ih]

/-- Nothing is read between the last white space and the end of the line. -/
def NothingPending (getenv : List UInt8 → Option (List UInt8)) (str : List UInt8) : Prop :=
  lastRun (grammarPieces getenv str) = []

/-- A line that `parse` accepts, with tokens that are not too long, gives the tokens of the grammar exactly when it
does not end right behind a `$` or an opening delimiter, or there is nothing pending then. -/
theorem parse_keeps_tokens_iff {str : List UInt8} {argv : List (List UInt8)} (h : parse getenv str = .ok argv)
    (hshort : ∀ t ∈ grammarTokens getenv str, t.length < parseBufsize) :
    argv = grammarTokens getenv str ↔ ((pieces getenv str).2 = .dangling → NothingPending getenv str) := by
  have hnul : NoNul (pieces getenv str).1 := noNul_piecesGo _ _ _ (zero_notMem_cstr _)
  rw [grammarTokens,← tokensFrom_nil] at hshort
  rw [parse_eq] at h
  have hargv := feed_ok [] [] hshort hnul List.not_mem_nil h
  rw [List.nil_append,stored] at hargv
  rw [hargv,grammarTokens,← tokensFrom_nil]
  by_cases hd : (pieces getenv str).2 = .dangling
  · have hextra : ∀ x ∈ lookupPiece getenv [], x ≠ .gap := by
      unfold lookupPiece
      cases getenv [] with
      | none => exact fun x hx => nomatch hx
      | some v =>
        intro x hx
        rw [List.mem_singleton.mp hx]
        nofun
    rw [if_pos hd,tokensFrom_eq_closedFrom,NothingPending,lastFrom_nil]
    have hclosed : closedFrom [] (grammarPieces getenv str) = closedFrom [] (pieces getenv str).1 := by
      rw [grammarPieces,if_pos hd]
      exact closedFrom_append hextra []
    rw [hclosed]
    constructor
    · intro heq _
      by_contra hne
      rw [filter_cons hne] at heq
      exact absurd (List.self_eq_append_right.mp heq) (List.cons_ne_nil _ _)
    · intro hp
      rw [hp hd,filter_nil,List.append_nil]
  · rw [if_neg hd,grammarPieces,if_neg hd,List.append_nil]
    exact iff_of_true rfl fun hy => absurd hy hd

end Grammar

theorem parse_keeps_tokens_quoted : parse (fun _ => none) [97,32,34,98,32,99,34] = .ok [[97],[98,32,99]] ∧
    grammarTokens (fun _ => none) [97,32,34,98,32,99,34] = [[97],[98,32,99]] := by
  have h : parse (fun _ => none) [97,32,34,98,32,99,34] = .ok [[97],[98,32,99]] := by decide
  have hshort : ∀ t ∈ grammarTokens (fun _ => none) [97,32,34,98,32,99,34], t.length < parseBufsize := by decide
  have hend : (pieces (fun _ => none) [97,32,34,98,32,99,34]).2 ≠ .dangling := by decide
  exact ⟨h,((parse_keeps_tokens_iff h hshort).mpr fun hd => absurd hd hend).symm⟩

/-- `abc$` is no token. -/
theorem parse_drops_pending : parse (fun _ => none) [97,98,99,36] = .ok [] ∧
    grammarTokens (fun _ => none) [97,98,99,36] = [[97,98,99]] := by
  constructor <;> decide

end Blub.Boot
