import Mathlib.Data.List.TakeWhile
import Mathlib.Tactic

/-! The command lines of the loader: `backslash`, from `interp_backslash.c`, and `parse`, from
`interp_parse.c`, and a way to quote arguments that `parse` undoes. -/
namespace Blub.Boot

def chBackslash : UInt8 := 92
def chDquote : UInt8 := 34
def chSquote : UInt8 := 39
def chDollar : UInt8 := 36
def chHash : UInt8 := 35
def chSpace : UInt8 := 32

def isspace (c : UInt8) : Bool := c = chSpace || (9 ≤ c && c ≤ 13)
def isdigit (c : UInt8) : Bool := 48 ≤ c && c ≤ 57
def isoctal (c : UInt8) : Bool := 48 ≤ c && c ≤ 55
def islower (c : UInt8) : Bool := 97 ≤ c && c ≤ 122
def isxdigit (c : UInt8) : Bool := isdigit c || (97 ≤ c && c ≤ 102) || (65 ≤ c && c ≤ 70)

/-- `DIGIT`. -/
def digit (c : UInt8) : UInt8 := if isdigit c then c-48 else if islower c then c+10-97 else c+10-65

/-- What a C string holds up to its end. -/
def cstr (s : List UInt8) : List UInt8 := s.takeWhile (· ≠ 0)

/-- The one-letter escapes, with what they stand for. -/
def escapes : List (UInt8 × List UInt8) :=
  [(98,[8]),(102,[12]),(114,[13]),(110,[10]),(115,[32]),(116,[9]),(118,[11]),(122,[])]

/-- `backslash`; the flag is `seenbs`. -/
def backslashGo : Bool → List UInt8 → List UInt8
  | seenbs, [] => if seenbs then [chBackslash] else []
  | false, c :: s => if c = chBackslash then backslashGo true s else c :: backslashGo false s
  | true, c :: s =>
    if c = chBackslash then chBackslash :: backslashGo false s
    else if c = chSquote ∨ c = chDquote ∨ c = chDollar then chBackslash :: c :: backslashGo false s
    else
      match escapes.lookup c with
      | some out => out ++ backslashGo false s
      | none =>
        if isdigit c then
          match s with
          | d :: e :: s' =>
            if c ≤ 51 ∧ isoctal d ∧ isoctal e then ((digit c <<< 6)+(digit d <<< 3)+digit e) :: backslashGo false s'
            else if c = 48 ∧ (d = 120 ∨ d = 88) ∧ isxdigit e then
              match s' with
              | g :: s'' =>
                if isxdigit g then ((digit e <<< 4)+digit g) :: backslashGo false s''
                else digit e :: backslashGo false (g :: s'')
              | [] => [digit e]
            -- the digit is looked at again, as any other character
            else c :: backslashGo false (d :: e :: s')
          | [d] => c :: backslashGo false [d]
          | [] => [c]
        else c :: backslashGo false s

def backslash (str : List UInt8) : List UInt8 := backslashGo false str

def parseBufsize : ℕ := 1024
def maxargs : ℕ := 20

inductive Mode
  | str
  | var
  | white
  deriving DecidableEq, Repr

/-- The local variables of `parse`, and `args`. The first `i` bytes of `buf` are kept. -/
structure Lexer where
  state : Mode
  quote : UInt8
  token : UInt8
  i : ℕ
  buf : List UInt8
  args : List (List UInt8)

/-- `fault`: a write outside of `buf` or `args`. -/
inductive Parsed
  | ok (argv : List (List UInt8))
  | fail
  | fault
  deriving DecidableEq

def isdelim (c : UInt8) : UInt8 := if c = 123 then 125 else if c = 40 then 41 else 0

def isquote (c : UInt8) : Bool := c = chSquote || c = chDquote

-- the equations are made once, where the function is defined, and not in each proof that unfolds it
attribute [local grind =] backslashGo

section Code
variable (getenv : List UInt8 → Option (List UInt8))

/-- `buf[i++] = c`, behind its `PARSE_FAIL`. -/
def Lexer.put (s : Lexer) (c : UInt8) (go : Lexer → Parsed) : Parsed :=
  if s.i = parseBufsize-1 then .fail
  else if parseBufsize ≤ s.i then .fault
  else go {s with i := s.i+1, buf := s.buf ++ [c]}

/-- `buf[i] = '\0'` and `insert`. -/
def Lexer.insert (s : Lexer) (go : Lexer → Parsed) : Parsed :=
  if parseBufsize ≤ s.i then .fault
  else if maxargs ≤ s.args.length then .fail
  else go {s with i := 0, buf := [], args := s.args ++ [cstr s.buf]}

/-- The value of a variable goes to the end of `buf`, cut off where `buf` ends; `i` is advanced by
the whole length. -/
def Lexer.expand (s : Lexer) (name : List UInt8) (go : Lexer → Parsed) : Parsed :=
  match getenv name with
  | none => go s
  | some val =>
    if parseBufsize ≤ s.i then .fault
    else go {s with i := s.i+min (cstr val).length (parseBufsize-1),
                    buf := s.buf ++ (cstr val).take (parseBufsize-(s.i+1))}

/-- What is left to do behind the loop. -/
def Lexer.finish (s : Lexer) : Parsed :=
  let close (s : Lexer) : Parsed := if maxargs ≤ s.args.length then .fault else .ok s.args
  if s.i ≠ 0 ∧ s.state = .str then s.insert close else close s

/-- The loop of `parse`, with what `p` points at. A turn that consumes nothing changes the state. -/
def parseLoop : ℕ → Lexer → List UInt8 → Parsed
  | _, s, [] => s.finish
  | 0, _, _ => .fault
  | fuel+1, s, c :: p =>
    match s.state with
    | .str =>
      if c = chHash ∧ s.quote = 0 then s.finish
      else if c = chBackslash ∧ p ≠ [] then
        match p with
        | d :: p' => s.put d fun s => parseLoop fuel s p'
        | [] => .fault
      else if isquote c then parseLoop fuel {s with quote := if s.quote ≠ 0 then 0 else c} p
      else if isspace c ∧ s.quote = 0 then
        if s.i ≠ 0 then ({s with state := .white}).insert fun s => parseLoop fuel s p
        else parseLoop fuel {s with state := .white} p
      else if c = chDollar then
        match p with
        | d :: p' =>
          if isdelim d ≠ 0 then parseLoop fuel {s with state := .var, token := isdelim d} p'
          else parseLoop fuel {s with state := .var, token := 0} (d :: p')
        | [] => parseLoop fuel {s with state := .var, token := 0} []
      else s.put c fun s => parseLoop fuel s p
    | .white => if isspace c then parseLoop fuel s p else parseLoop fuel {s with state := .str} (c :: p)
    | .var =>
      if s.token ≠ 0 then
        if s.token ∈ c :: p then
          s.expand getenv ((c :: p).takeWhile (· ≠ s.token)) fun t =>
            parseLoop fuel {t with state := .str} (((c :: p).dropWhile (· ≠ s.token)).drop 1)
        else .fail
      else
        s.expand getenv ((c :: p).takeWhile (! isspace ·)) fun t =>
          parseLoop fuel {t with state := .str} ((c :: p).dropWhile (! isspace ·))

/-- `parse` of a line. A turn of the loop takes a character or leaves `WHITE` or `VAR`. -/
def parse (str : List UInt8) : Parsed :=
  let copy := cstr (backslash (cstr str))
  parseLoop getenv (2*copy.length+1) ⟨.str,0,0,0,[],[]⟩ copy

attribute [local grind =] parseLoop

end Code

/-- A byte inside of double quotes. -/
def quoteByte (c : UInt8) : List UInt8 :=
  if c = chBackslash then [chBackslash,chBackslash,chBackslash,chBackslash]
  else if c = chDquote ∨ c = chSquote ∨ c = chDollar then [chBackslash,c]
  else [c]

def quote (s : List UInt8) : List UInt8 := chDquote :: (s.flatMap quoteByte ++ [chDquote])

/-- The same byte behind `backslash`. -/
def keptByte (c : UInt8) : List UInt8 :=
  if c = chBackslash then [chBackslash,chBackslash]
  else if c = chDquote ∨ c = chSquote ∨ c = chDollar then [chBackslash,c]
  else [c]

def kept (s : List UInt8) : List UInt8 := chDquote :: (s.flatMap keptByte ++ [chDquote])

theorem backslashGo_backslash (s : List UInt8) :
    backslashGo true (chBackslash :: s) = chBackslash :: backslashGo false s := by
  rw [backslashGo.eq_def]
  exact if_pos rfl

theorem backslashGo_special {c : UInt8} (hb : c ≠ chBackslash) (hq : c = chSquote ∨ c = chDquote ∨ c = chDollar)
    (s : List UInt8) : backslashGo true (c :: s) = chBackslash :: c :: backslashGo false s := by
  rw [backslashGo.eq_def]
  exact (if_neg hb).trans (if_pos hq)

theorem backslashGo_quoteByte (c : UInt8) (p : List UInt8) :
    backslashGo false (quoteByte c ++ p) = keptByte c ++ backslashGo false p := by
  unfold quoteByte keptByte
  split_ifs with hb hq
  · simp [backslashGo,backslashGo_backslash]
  · have hq' : c = chSquote ∨ c = chDquote ∨ c = chDollar := by tauto
    simp [backslashGo,backslashGo_special hb hq']
  · simp [backslashGo,hb]

theorem backslashGo_flatMap (s p : List UInt8) :
    backslashGo false (s.flatMap quoteByte ++ p) = s.flatMap keptByte ++ backslashGo false p := by
  induction s with
  | nil => rfl
  | cons c s ih =>
    rw [List.flatMap_cons,List.append_assoc,backslashGo_quoteByte,ih,List.flatMap_cons,List.append_assoc]

theorem backslashGo_quote (s p : List UInt8) : backslashGo false (quote s ++ p) = kept s ++ backslashGo false p := by
  have hd : chDquote ≠ chBackslash := by decide
  simp only [quote,kept,List.cons_append,List.append_assoc,List.nil_append]
  rw [backslashGo,if_neg hd,backslashGo_flatMap,backslashGo,if_neg hd]

theorem backslash_line (l : List (List UInt8)) :
    backslash ([chSpace].intercalate (l.map quote)) = [chSpace].intercalate (l.map kept) := by
  have hsp : chSpace ≠ chBackslash := by decide
  unfold backslash
  induction l with
  | nil => rfl
  | cons s l ih =>
    cases l with
    | nil =>
      have := backslashGo_quote s []
      simpa [List.intercalate,backslashGo] using this
    | cons t l =>
      rw [List.map_cons,List.map_cons,List.intercalate_cons_cons,List.append_assoc,backslashGo_quote]
      rw [List.map_cons] at ih
      rw [List.singleton_append,backslashGo,if_neg hsp,ih,List.map_cons,List.map_cons,List.map_cons,
        List.intercalate_cons_cons,List.append_assoc,List.singleton_append]

theorem cstr_of_notMem {s : List UInt8} (h : (0 : UInt8) ∉ s) : cstr s = s := by
  rw [cstr,List.takeWhile_eq_self_iff]
  intro c hc
  simp only [ne_eq,decide_not,Bool.not_eq_true',decide_eq_false_iff_not]
  rintro rfl
  exact h hc

theorem zero_notMem_quoted {f : UInt8 → List UInt8} (hf : ∀ c, c ≠ 0 → (0 : UInt8) ∉ f c) {s : List UInt8}
    (h : (0 : UInt8) ∉ s) : (0 : UInt8) ∉ chDquote :: (s.flatMap f ++ [chDquote]) := by
  have hd : (0 : UInt8) ≠ chDquote := by decide
  simp only [List.mem_cons,List.mem_append,List.mem_flatMap,List.not_mem_nil,or_false,hd,false_or,not_exists,not_and]
  intro c hc
  exact hf c fun h₀ => h (h₀ ▸ hc)

theorem zero_notMem_line {f : List UInt8 → List UInt8} (l : List (List UInt8))
    (h : ∀ s ∈ l, (0 : UInt8) ∉ f s) : (0 : UInt8) ∉ [chSpace].intercalate (l.map f) := by
  induction l with
  | nil => simp [List.intercalate]
  | cons s l ih =>
    have hs := h s List.mem_cons_self
    have hl := ih fun t ht => h t (List.mem_cons_of_mem _ ht)
    cases l with
    | nil => simpa [List.intercalate] using hs
    | cons t l =>
      have hsp : (0 : UInt8) ≠ chSpace := by decide
      rw [List.map_cons,List.map_cons,List.intercalate_cons_cons]
      rw [List.map_cons] at hl
      simp only [List.mem_append,List.mem_singleton,hsp,or_false,not_or]
      exact ⟨hs,hl⟩

theorem quoteByte_ne_zero (c : UInt8) (hc : c ≠ 0) : (0 : UInt8) ∉ quoteByte c := by
  have hb : (0 : UInt8) ≠ chBackslash := by decide
  unfold quoteByte
  split_ifs <;> simp [hb,hc.symm]

theorem keptByte_ne_zero (c : UInt8) (hc : c ≠ 0) : (0 : UInt8) ∉ keptByte c := by
  have hb : (0 : UInt8) ≠ chBackslash := by decide
  unfold keptByte
  split_ifs <;> simp [hb,hc.symm]

section RoundTrip
variable (getenv : List UInt8 → Option (List UInt8))

/-- Between double quotes every byte that was kept is put into `buf`. -/
theorem parseLoop_keptByte (fuel : ℕ) (s : Lexer) (c : UInt8) (p : List UInt8) (hs : s.state = .str)
    (hq : s.quote = chDquote) (hi : s.i < parseBufsize-1) :
    parseLoop getenv (fuel+1) s (keptByte c ++ p) = parseLoop getenv fuel {s with i := s.i+1, buf := s.buf ++ [c]} p := by
  have hq0 : s.quote ≠ 0 := by rw [hq]; decide
  have hput : ∀ go : Lexer → Parsed, s.put c go = go {s with i := s.i+1, buf := s.buf ++ [c]} := by
    intro go
    rw [Lexer.put,if_neg (by omega),if_neg (by omega)]
  have hbh : chBackslash ≠ chHash := by decide
  unfold keptByte
  split_ifs with hb hsp
  · subst hb
    simp only [List.cons_append,List.nil_append,parseLoop,hs,hq0,and_false,if_false]
    simp [hput,hs]
  · simp only [List.cons_append,List.nil_append,parseLoop,hs,hq0,and_false,if_false]
    simp [hput,hs]
  · have hnq : isquote c = false := by
      simp only [isquote]
      simp only [not_or] at hsp
      simp [hsp]
    simp only [List.cons_append,List.nil_append,parseLoop,hs,hq0,and_false,if_false,hb,false_and,hnq]
    simp only [not_or] at hsp
    simp [hsp,hput,hs]

theorem parseLoop_flatMap (t p : List UInt8) (fuel : ℕ) (s : Lexer) (hs : s.state = .str)
    (hq : s.quote = chDquote) (hi : s.i+t.length < parseBufsize) :
    parseLoop getenv (fuel+t.length) s (t.flatMap keptByte ++ p) =
      parseLoop getenv fuel {s with i := s.i+t.length, buf := s.buf ++ t} p := by
  induction t generalizing s with
  | nil => simp
  | cons c t ih =>
    rw [List.length_cons] at hi
    have hrest := ih {s with i := s.i+1, buf := s.buf ++ [c]} hs hq (by dsimp only; omega)
    rw [List.flatMap_cons,List.append_assoc,List.length_cons,← Nat.add_assoc,
      parseLoop_keptByte getenv _ s c _ hs hq (by omega),hrest]
    dsimp only
    rw [List.append_assoc,List.singleton_append,Nat.add_assoc,Nat.add_comm 1]

/-- A quoted argument is collected in `buf`. -/
theorem parseLoop_kept (t p : List UInt8) (fuel : ℕ) (args : List (List UInt8)) (ht : t.length < parseBufsize) :
    parseLoop getenv (fuel+t.length+2) ⟨.str,0,0,0,[],args⟩ (kept t ++ p) =
      parseLoop getenv fuel ⟨.str,0,0,t.length,t,args⟩ p := by
  have hopen : parseLoop getenv (fuel+t.length+2) ⟨.str,0,0,0,[],args⟩ (kept t ++ p) =
      parseLoop getenv (fuel+1+t.length) ⟨.str,chDquote,0,0,[],args⟩ (t.flatMap keptByte ++ chDquote :: p) := by
    have hf : fuel+t.length+2 = fuel+1+t.length+1 := by omega
    rw [hf,kept,List.cons_append,List.append_assoc,List.singleton_append]
    rfl
  rw [hopen,parseLoop_flatMap getenv t _ _ _ rfl rfl (by simpa using ht)]
  simp only [Nat.zero_add,List.nil_append]
  rfl

theorem kept_length (t : List UInt8) : t.length+2 ≤ (kept t).length := by
  have hbyte : ∀ c, 1 ≤ (keptByte c).length := by
    intro c
    unfold keptByte
    split_ifs <;> simp
  have hmap : t.length ≤ (t.flatMap keptByte).length := by
    induction t with
    | nil => simp
    | cons c t ih =>
      rw [List.flatMap_cons,List.length_append,List.length_cons]
      have := hbyte c
      omega
  simp only [kept,List.length_cons,List.length_append,List.length_nil]
  omega

theorem insert_arg (t : List UInt8) (st : Mode) (args : List (List UInt8)) (ht : t.length < parseBufsize)
    (h0 : (0 : UInt8) ∉ t) (hn : args.length < maxargs) (go : Lexer → Parsed) :
    (Lexer.mk st 0 0 t.length t args).insert go = go ⟨st,0,0,0,[],args ++ [t]⟩ := by
  rw [Lexer.insert,if_neg (by dsimp only; omega),if_neg (by dsimp only; omega),cstr_of_notMem h0]

/-- The space behind an argument closes it. -/
theorem parseLoop_space (t p : List UInt8) (fuel : ℕ) (args : List (List UInt8)) (hpos : 0 < t.length)
    (ht : t.length < parseBufsize) (h0 : (0 : UInt8) ∉ t) (hn : args.length < maxargs) :
    parseLoop getenv (fuel+2) ⟨.str,0,0,t.length,t,args⟩ (chSpace :: chDquote :: p) =
      parseLoop getenv fuel ⟨.str,0,0,0,[],args ++ [t]⟩ (chDquote :: p) := by
  have hsp : isspace chSpace = true := by decide
  have hdq : isspace chDquote = false := by decide
  have hwhite : parseLoop getenv (fuel+2) ⟨.str,0,0,t.length,t,args⟩ (chSpace :: chDquote :: p) =
      (Lexer.mk .white 0 0 t.length t args).insert fun s => parseLoop getenv (fuel+1) s (chDquote :: p) := by
    rw [parseLoop]
    simp only [hsp]
    have hb : ¬(chSpace = chBackslash ∧ chDquote :: p ≠ []) := fun h => absurd h.1 (by decide)
    rw [if_neg (by decide),if_neg hb,if_neg (by decide),if_pos (by decide),if_pos (by omega)]
  rw [hwhite,insert_arg t .white args ht h0 hn,parseLoop.eq_def]
  simp only [hdq]
  rfl

/-- A line of quoted arguments, from the start of any of them on. -/
theorem parseLoop_line (l : List (List UInt8)) (fuel : ℕ) (args : List (List UInt8))
    (hl : ∀ s ∈ l, s ≠ [] ∧ s.length < parseBufsize ∧ (0 : UInt8) ∉ s) (hn : args.length+l.length < maxargs)
    (hfuel : 2*([chSpace].intercalate (l.map kept)).length ≤ fuel) :
    parseLoop getenv fuel ⟨.str,0,0,0,[],args⟩ ([chSpace].intercalate (l.map kept)) = .ok (args ++ l) := by
  induction l generalizing fuel args with
  | nil =>
    rw [List.length_nil,Nat.add_zero] at hn
    simp [List.intercalate,parseLoop,Lexer.finish,hn]
  | cons s l ih =>
    obtain ⟨hne,hlen,h0⟩ := hl s List.mem_cons_self
    have hk := kept_length s
    have hpos : 0 < s.length := List.length_pos_iff.mpr hne
    rw [List.length_cons] at hn
    cases l with
    | nil =>
      have hline : [chSpace].intercalate ([s].map kept) = kept s ++ [] := by simp [List.intercalate]
      rw [hline] at hfuel ⊢
      rw [List.length_append] at hfuel
      obtain ⟨k,rfl⟩ : ∃ k, fuel = k+s.length+2 := ⟨fuel-s.length-2,by omega⟩
      rw [parseLoop_kept getenv s [] k args hlen,parseLoop,Lexer.finish,if_pos ⟨by dsimp only; omega,rfl⟩,
        insert_arg s .str args hlen h0 (by omega)]
      dsimp only
      rw [if_neg (by rw [List.length_append,List.length_singleton]; omega)]
    | cons t l =>
      have hline : [chSpace].intercalate ((s :: t :: l).map kept) =
          kept s ++ chSpace :: [chSpace].intercalate ((t :: l).map kept) := by
        rw [List.map_cons,List.map_cons,List.intercalate_cons_cons,List.append_assoc]
        rfl
      rw [hline] at hfuel ⊢
      rw [List.length_append,List.length_cons] at hfuel
      obtain ⟨k,rfl⟩ : ∃ k, fuel = k+2+s.length+2 := ⟨fuel-s.length-4,by omega⟩
      rw [parseLoop_kept getenv s _ (k+2) args hlen]
      have hhead : ∃ p, [chSpace].intercalate ((t :: l).map kept) = chDquote :: p := by
        cases l with
        | nil => exact ⟨_,by simp [List.intercalate,kept]; rfl⟩
        | cons u l =>
          rw [List.map_cons,List.map_cons,List.intercalate_cons_cons,kept]
          exact ⟨_,rfl⟩
      obtain ⟨p,hp⟩ := hhead
      have hrest := ih k (args ++ [s]) (fun u hu => hl u (List.mem_cons_of_mem _ hu))
        (by rw [List.length_append,List.length_singleton]; omega) (by omega)
      rw [hp] at hrest ⊢
      rw [parseLoop_space getenv s p k args hpos hlen h0 (by omega),hrest,List.append_assoc]
      rfl

/-- Quoted arguments, joined by single spaces, are parsed back to what they were. -/
theorem parse_quote (l : List (List UInt8)) (hn : l.length ≤ 19)
    (hl : ∀ s ∈ l, s ≠ [] ∧ s.length ≤ 1023 ∧ (0 : UInt8) ∉ s) :
    parse getenv ([chSpace].intercalate (l.map quote)) = .ok l := by
  have hstr : cstr ([chSpace].intercalate (l.map quote)) = [chSpace].intercalate (l.map quote) :=
    cstr_of_notMem (zero_notMem_line l fun s hs => zero_notMem_quoted quoteByte_ne_zero (hl s hs).2.2)
  have hcopy : cstr ([chSpace].intercalate (l.map kept)) = [chSpace].intercalate (l.map kept) :=
    cstr_of_notMem (zero_notMem_line l fun s hs => zero_notMem_quoted keptByte_ne_zero (hl s hs).2.2)
  rw [parse,hstr,backslash_line,hcopy]
  have hmax : ([] : List (List UInt8)).length+l.length < maxargs := by
    rw [List.length_nil,maxargs]
    omega
  exact parseLoop_line getenv l _ [] (fun s hs => ⟨(hl s hs).1,Nat.lt_succ_of_le (hl s hs).2.1,(hl s hs).2.2⟩)
    hmax (Nat.le_succ _)

end RoundTrip

/-- A path with a space, a dollar sign and a backslash. -/
theorem parse_quote_path : parse (fun _ => none) ([chSpace].intercalate
    ([[115,101,116],[47,36,32,92,34,35]].map quote)) = .ok [[115,101,116],[47,36,32,92,34,35]] :=
  parse_quote _ _ (by decide) (by decide)

end Blub.Boot
