import Blub.Boot.Parse

/-! What `parse` reads in a line: the bytes and the values its tokens are made of, and the white space between them.
The loop of `parse` is what one makes of these pieces with a buffer of 1024 bytes and an array of 20 tokens. -/
namespace Blub.Boot

/-- A literal byte, the value of a variable, or white space that ends a token. -/
inductive Piece
  | byte (c : UInt8)
  | value (v : List UInt8)
  | gap
  deriving DecidableEq

/-- How a line ends: at its end or at a comment, right behind a `$` or an opening delimiter, or in a variable that is
never closed. -/
inductive Ending
  | done
  | dangling
  | unclosed
  deriving DecidableEq

section Read
variable (getenv : List UInt8 → Option (List UInt8))

def lookupPiece (name : List UInt8) : List Piece :=
  match getenv name with
  | none => []
  | some v => [.value (cstr v)]

def prepend (ps : List Piece) (r : List Piece × Ending) : List Piece × Ending := (ps ++ r.1,r.2)

/-- What follows a `$`; `go` reads the rest of the line. -/
def dollarPieces (go : List UInt8 → List Piece × Ending) : List UInt8 → List Piece × Ending
  | [] => ([],.dangling)
  | d :: p =>
    if isdelim d ≠ 0 then
      if p = [] then ([],.dangling)
      else if isdelim d ∈ p then
        prepend (lookupPiece getenv (p.takeWhile (· ≠ isdelim d))) (go ((p.dropWhile (· ≠ isdelim d)).drop 1))
      else ([],.unclosed)
    else prepend (lookupPiece getenv ((d :: p).takeWhile (! isspace ·))) (go ((d :: p).dropWhile (! isspace ·)))

/-- The pieces of a line whose escapes are resolved, inside of the quotes that `quote` stands for. -/
def piecesGo : ℕ → UInt8 → List UInt8 → List Piece × Ending
  | _, _, [] => ([],.done)
  | 0, _, _ => ([],.done)
  | n+1, quote, c :: p =>
    if c = chHash ∧ quote = 0 then ([],.done)
    else if c = chBackslash ∧ p ≠ [] then prepend [.byte (p.headD 0)] (piecesGo n quote p.tail)
    else if isquote c then piecesGo n (if quote ≠ 0 then 0 else c) p
    else if isspace c ∧ quote = 0 then prepend [.gap] (piecesGo n quote p)
    else if c = chDollar then dollarPieces getenv (piecesGo n quote) p
    else prepend [.byte c] (piecesGo n quote p)

/-- The line with its escapes resolved, up to a NUL that one of them makes. -/
def resolved (str : List UInt8) : List UInt8 := cstr (backslash (cstr str))

def pieces (str : List UInt8) : List Piece × Ending := piecesGo getenv (resolved str).length 0 (resolved str)

attribute [local grind =] piecesGo

end Read

/-- What `parse` makes of the pieces, with `i` bytes in its buffer. -/
def feed (e : Ending) : List Piece → ℕ → List UInt8 → List (List UInt8) → Parsed
  | [], i, buf, args =>
    match e with
    | .unclosed => .fail
    | .dangling => if maxargs ≤ args.length then .fault else .ok args
    | .done =>
      if i = 0 then if maxargs ≤ args.length then .fault else .ok args
      else if parseBufsize ≤ i then .fault
      else if maxargs ≤ args.length then .fail
      else if maxargs ≤ args.length+1 then .fault
      else .ok (args ++ [cstr buf])
  | .byte c :: ps, i, buf, args =>
    if i = parseBufsize-1 then .fail
    else if parseBufsize ≤ i then .fault
    else feed e ps (i+1) (buf ++ [c]) args
  | .value v :: ps, i, buf, args =>
    if parseBufsize ≤ i then .fault
    else feed e ps (i+min v.length (parseBufsize-1)) (buf ++ v.take (parseBufsize-(i+1))) args
  | .gap :: ps, i, buf, args =>
    if i = 0 then feed e ps 0 buf args
    else if parseBufsize ≤ i then .fault
    else if maxargs ≤ args.length then .fail
    else feed e ps 0 [] (args ++ [cstr buf])

attribute [local grind =] feed

/-- Unquoted white space. -/
theorem piecesGo_gap {getenv : List UInt8 → Option (List UInt8)} {n : ℕ} {c : UInt8} {p : List UInt8}
    (h : isspace c = true) : piecesGo getenv (n+1) 0 (c :: p) = prepend [.gap] (piecesGo getenv n 0 p) := by
  have hc : c ≠ chHash ∧ c ≠ chBackslash ∧ isquote c = false := by
    refine ⟨?_,?_,?_⟩
    · rintro rfl
      revert h
      decide
    · rintro rfl
      revert h
      decide
    · by_contra hq
      rw [Bool.not_eq_false,isquote,Bool.or_eq_true,decide_eq_true_eq,decide_eq_true_eq] at hq
      obtain rfl | rfl := hq
      · revert h
        decide
      · revert h
        decide
  rw [piecesGo,if_neg fun hh => hc.1 hh.1,if_neg fun hh => hc.2.1 hh.1,if_neg (by rw [hc.2.2]; exact Bool.false_ne_true),
    if_pos ⟨h,rfl⟩]

section Loop
variable {getenv : List UInt8 → Option (List UInt8)}

theorem finish_white {q t : UInt8} {buf : List UInt8} {args : List (List UInt8)} :
    (Lexer.mk .white q t 0 buf args).finish = feed .done [] 0 buf args := rfl

theorem finish_var {q t : UInt8} {i : ℕ} {buf : List UInt8} {args : List (List UInt8)} :
    (Lexer.mk .var q t i buf args).finish = feed .dangling [] i buf args := by
  simp [Lexer.finish,feed]

theorem finish_str {q t : UInt8} {i : ℕ} {buf : List UInt8} {args : List (List UInt8)} :
    (Lexer.mk .str q t i buf args).finish = feed .done [] i buf args := by
  by_cases hi : i = 0
  · simp [Lexer.finish,feed,hi]
  · simp [Lexer.finish,feed,hi,Lexer.insert]

/-- What `parse` does in its buffer is what is done with the pieces. -/
theorem expand_eq {s : Lexer} {name : List UInt8} {e : Ending} {ps : List Piece} {go : Lexer → Parsed}
    (h : ∀ t : Lexer, t.quote = s.quote → go t = feed e ps t.i t.buf t.args) :
    s.expand getenv name go = feed e (lookupPiece getenv name ++ ps) s.i s.buf s.args := by
  unfold Lexer.expand lookupPiece
  cases getenv name with
  | none => exact h s rfl
  | some v =>
    dsimp only
    rw [List.singleton_append,feed]
    split_ifs with hi
    · rfl
    · exact h _ rfl

theorem put_eq {s : Lexer} {c : UInt8} {e : Ending} {ps : List Piece} {go : Lexer → Parsed}
    (h : ∀ t : Lexer, t.quote = s.quote → t.state = s.state → go t = feed e ps t.i t.buf t.args) :
    s.put c go = feed e (.byte c :: ps) s.i s.buf s.args := by
  unfold Lexer.put
  rw [feed]
  split_ifs with hfull hout
  · rfl
  · rfl
  · exact h _ rfl rfl

/-- The turn of `parse` behind a `$`. -/
theorem parseLoop_var {m n : ℕ} {s : Lexer} {c : UInt8} {p : List UInt8} (hs : s.state = .var) (ht : s.token = 0)
    (hm : 2*(c :: p).length ≤ m) (hn : (c :: p).length ≤ n)
    (ih : ∀ (p : List UInt8) (m : ℕ) (s : Lexer), p.length ≤ n → 2*p.length ≤ m → s.state = .str →
      parseLoop getenv m s p = feed (piecesGo getenv n s.quote p).2 (piecesGo getenv n s.quote p).1 s.i s.buf s.args) :
    parseLoop getenv (m+1) s (c :: p) =
      feed (piecesGo getenv n s.quote ((c :: p).dropWhile (! isspace ·))).2
        (lookupPiece getenv ((c :: p).takeWhile (! isspace ·)) ++
          (piecesGo getenv n s.quote ((c :: p).dropWhile (! isspace ·))).1) s.i s.buf s.args := by
  have hlen := (List.dropWhile_sublist (! isspace ·) (l := c :: p)).length_le
  simp only [parseLoop,hs,ht,ne_eq,not_true_eq_false,if_false]
  refine expand_eq fun t htq => ?_
  rw [← htq]
  exact ih _ _ { t with state := .str } (by omega) (by omega) rfl

/-- The turn of `parse` behind an opening delimiter. -/
theorem parseLoop_delim {m n : ℕ} {s : Lexer} {c : UInt8} {p : List UInt8} (hs : s.state = .var) (ht : s.token ≠ 0)
    (hm : 2*(c :: p).length ≤ m) (hn : (c :: p).length ≤ n)
    (ih : ∀ (p : List UInt8) (m : ℕ) (s : Lexer), p.length ≤ n → 2*p.length ≤ m → s.state = .str →
      parseLoop getenv m s p = feed (piecesGo getenv n s.quote p).2 (piecesGo getenv n s.quote p).1 s.i s.buf s.args) :
    parseLoop getenv (m+1) s (c :: p) =
      if s.token ∈ c :: p then
        feed (piecesGo getenv n s.quote (((c :: p).dropWhile (· ≠ s.token)).drop 1)).2
          (lookupPiece getenv ((c :: p).takeWhile (· ≠ s.token)) ++
            (piecesGo getenv n s.quote (((c :: p).dropWhile (· ≠ s.token)).drop 1)).1) s.i s.buf s.args
      else .fail := by
  have hlen := (List.dropWhile_sublist (· ≠ s.token) (l := c :: p)).length_le
  have hdrop : (((c :: p).dropWhile (· ≠ s.token)).drop 1).length ≤ (c :: p).length := by
    rw [List.length_drop]
    omega
  simp only [parseLoop,hs]
  rw [if_pos ht]
  by_cases hmem : s.token ∈ c :: p
  · rw [if_pos hmem,if_pos hmem]
    refine expand_eq fun t htq => ?_
    rw [← htq]
    exact ih _ _ { t with state := .str } (by omega) (by omega) rfl
  · rw [if_neg hmem,if_neg hmem]

/-- The loop with `n` bytes of the line left does what is done with their pieces, in at most two turns for a byte. -/
structure Feeds (getenv : List UInt8 → Option (List UInt8)) (n : ℕ) : Prop where
  str : ∀ (p : List UInt8) (m : ℕ) (s : Lexer), p.length ≤ n → 2*p.length ≤ m → s.state = .str →
    parseLoop getenv m s p = feed (piecesGo getenv n s.quote p).2 (piecesGo getenv n s.quote p).1 s.i s.buf s.args
  white : ∀ (p : List UInt8) (m : ℕ) (s : Lexer), p.length ≤ n → 2*p.length+1 ≤ m → s.state = .white → s.quote = 0 →
    s.i = 0 → parseLoop getenv m s p = feed (piecesGo getenv n 0 p).2 (piecesGo getenv n 0 p).1 s.i s.buf s.args

theorem feeds_nil_str (n m : ℕ) {s : Lexer} (hs : s.state = .str) : parseLoop getenv m s [] =
    feed (piecesGo getenv n s.quote []).2 (piecesGo getenv n s.quote []).1 s.i s.buf s.args := by
  obtain ⟨st,q,t,i,buf,args⟩ := s
  obtain rfl : st = .str := hs
  rw [parseLoop,piecesGo]
  exact finish_str

theorem feeds_nil_white (n m : ℕ) {s : Lexer} (hs : s.state = .white) (hi : s.i = 0) : parseLoop getenv m s [] =
    feed (piecesGo getenv n 0 []).2 (piecesGo getenv n 0 []).1 s.i s.buf s.args := by
  obtain ⟨st,q,t,i,buf,args⟩ := s
  obtain rfl : st = .white := hs
  obtain rfl : i = 0 := hi
  rw [parseLoop,piecesGo]
  exact finish_white

/-- A `$` and what follows it. -/
theorem Feeds.dollar {n m : ℕ} (ih : Feeds getenv n) {p : List UInt8} (q : UInt8) (i : ℕ) (buf : List UInt8)
    (args : List (List UInt8)) : p.length ≤ n → 2*p.length+1 ≤ m →
    (match p with
      | d :: p' =>
        if isdelim d ≠ 0 then parseLoop getenv m ⟨.var,q,isdelim d,i,buf,args⟩ p'
        else parseLoop getenv m ⟨.var,q,0,i,buf,args⟩ (d :: p')
      | [] => (Lexer.mk .var q 0 i buf args).finish) =
    feed (dollarPieces getenv (piecesGo getenv n q) p).2 (dollarPieces getenv (piecesGo getenv n q) p).1 i buf args := by
  intro hp hm
  obtain ⟨m,rfl⟩ : ∃ m', m = m'+1 := ⟨m-1,by omega⟩
  cases p with
  | nil => exact finish_var
  | cons d p' =>
    rw [List.length_cons] at hp hm
    rw [dollarPieces]
    by_cases hd : isdelim d ≠ 0
    · rw [if_pos hd]
      dsimp only
      rw [if_pos hd]
      cases p' with
      | nil => exact finish_var
      | cons e p' =>
        rw [List.length_cons] at hp hm
        rw [if_neg (List.cons_ne_nil e p')]
        have hturn := parseLoop_delim (m := m) (n := n) (c := e) (p := p')
          (s := ⟨.var,q,isdelim d,i,buf,args⟩) rfl hd (by rw [List.length_cons]; omega)
          (by rw [List.length_cons]; omega) ih.str
        refine hturn.trans ?_
        dsimp only
        split_ifs
        · rfl
        · rfl
    · rw [if_neg hd]
      dsimp only
      rw [if_neg hd]
      exact parseLoop_var rfl rfl (by rw [List.length_cons]; omega) (by rw [List.length_cons]; omega) ih.str

theorem Feeds.turn {n m : ℕ} (ih : Feeds getenv n) {s : Lexer} {c : UInt8} {p : List UInt8} (hs : s.state = .str)
    (hp : p.length ≤ n) (hm : 2*p.length+1 ≤ m) : parseLoop getenv (m+1) s (c :: p) =
      feed (piecesGo getenv (n+1) s.quote (c :: p)).2 (piecesGo getenv (n+1) s.quote (c :: p)).1 s.i s.buf s.args := by
  obtain ⟨st,q,t,i,buf,args⟩ := s
  obtain rfl : st = .str := hs
  simp only [parseLoop,piecesGo]
  by_cases hcom : c = chHash ∧ q = 0
  · rw [if_pos hcom,if_pos hcom]
    exact finish_str
  rw [if_neg hcom,if_neg hcom]
  by_cases hbs : c = chBackslash ∧ p ≠ []
  · rw [if_pos hbs,if_pos hbs]
    cases p with
    | nil => exact absurd rfl hbs.2
    | cons d p' =>
      rw [List.length_cons] at hp hm
      refine put_eq fun t hq ht => ?_
      dsimp only at hq
      rw [← hq]
      exact ih.str p' m t (by omega) (by omega) ht
  rw [if_neg hbs,if_neg hbs]
  by_cases hquote : isquote c = true
  · rw [if_pos hquote,if_pos hquote]
    exact ih.str p m ⟨.str,if q ≠ 0 then 0 else c,t,i,buf,args⟩ hp (by omega) rfl
  rw [if_neg hquote,if_neg hquote]
  by_cases hspace : isspace c = true ∧ q = 0
  · rw [if_pos hspace,if_pos hspace]
    obtain ⟨-,rfl⟩ := hspace
    by_cases hi : i = 0
    · subst hi
      exact ih.white p m ⟨.white,0,t,0,buf,args⟩ hp hm rfl rfl rfl
    · rw [if_pos hi]
      unfold Lexer.insert prepend
      rw [List.singleton_append,feed,if_neg hi]
      split_ifs
      · rfl
      · rfl
      · exact ih.white p m ⟨.white,0,t,0,[],args ++ [cstr buf]⟩ hp hm rfl rfl rfl
  rw [if_neg hspace,if_neg hspace]
  by_cases hdollar : c = chDollar
  · rw [if_pos hdollar,if_pos hdollar]
    exact ih.dollar q i buf args hp hm
  rw [if_neg hdollar,if_neg hdollar]
  refine put_eq fun t hq ht => ?_
  dsimp only at hq
  rw [← hq]
  exact ih.str p m t hp (by omega) ht

theorem parseLoop_feeds (n : ℕ) : Feeds getenv n := by
  induction n with
  | zero =>
    constructor
    · intro p m s hp _ hs
      obtain rfl := List.length_eq_zero_iff.mp (Nat.le_zero.mp hp)
      exact feeds_nil_str 0 m hs
    · intro p m s hp _ hs _ hi
      obtain rfl := List.length_eq_zero_iff.mp (Nat.le_zero.mp hp)
      exact feeds_nil_white 0 m hs hi
  | succ n ih =>
    have hstr : ∀ (p : List UInt8) (m : ℕ) (s : Lexer), p.length ≤ n+1 → 2*p.length ≤ m → s.state = .str →
        parseLoop getenv m s p = feed (piecesGo getenv (n+1) s.quote p).2 (piecesGo getenv (n+1) s.quote p).1 s.i s.buf
          s.args := by
      intro p m s hp hm hs
      cases p with
      | nil => exact feeds_nil_str (n+1) m hs
      | cons c p =>
        rw [List.length_cons] at hp hm
        obtain ⟨m,rfl⟩ : ∃ m', m = m'+1 := ⟨m-1,by omega⟩
        exact ih.turn hs (by omega) (by omega)
    refine ⟨hstr,?_⟩
    intro p m s hp hm hs hq hi
    cases p with
    | nil => exact feeds_nil_white (n+1) m hs hi
    | cons c p =>
      obtain ⟨m,rfl⟩ : ∃ m', m = m'+1 := ⟨m-1,by omega⟩
      simp only [parseLoop,hs]
      by_cases hspace : isspace c = true
      · rw [if_pos hspace]
        rw [List.length_cons] at hp hm
        refine (ih.white p m s (by omega) (by omega) hs hq hi).trans ?_
        rw [piecesGo_gap hspace,hi]
        rfl
      · rw [if_neg hspace]
        refine (hstr (c :: p) m { s with state := .str } hp (by omega) rfl).trans ?_
        rw [hq]

/-- `parse` of a line, however long its loop may run. -/
theorem parse_eq_feed (str : List UInt8) (fuel : ℕ) :
    parseLoop getenv (2*(resolved str).length+1+fuel) ⟨.str,0,0,0,[],[]⟩ (resolved str) =
      feed (pieces getenv str).2 (pieces getenv str).1 0 [] [] :=
  (parseLoop_feeds _).str (resolved str) _ ⟨.str,0,0,0,[],[]⟩ le_rfl (by omega) rfl

end Loop

end Blub.Boot
