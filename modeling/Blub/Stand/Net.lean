import Mathlib.Tactic

/-! `sendrecv`, from `net.c`: a request is sent, and sent again, until a receive routine has what it
waits for. The network and the clock are a list of turns, one for each pass of the loop. -/
namespace Blub.Stand

/-- What a receive routine returns: a size, `-1` with `errno` 0, or `-1` with another `errno`. -/
inductive Recv
  | got (n : ℕ)
  | again
  | error (errno : ℤ)
  deriving DecidableEq, Repr

/-- One pass: the clock if the exchange starts here, whether a send works, what is received, and the
clock afterwards. -/
structure Turn (ι : Type*) where
  start : ℤ
  sent : Bool
  input : ι
  now : ℤ

structure Timer where
  t : ℤ
  tmo : ℤ
  tlast : ℤ
  tleft : ℤ

def maxtmo : ℤ := 120
def mintmo : ℤ := 2
def etimedout : ℤ := 60

section Code
variable {σ ι : Type*} (sproc : σ → σ) (rproc : ι → σ → Recv × σ)

/-- The loop of `sendrecv`. Without further turns it is still waiting. -/
def sendrecvLoop : List (Turn ι) → Timer → σ → Option (Recv × σ × List (Turn ι))
  | [], _, _ => none
  | turn :: turns, tm, s =>
    let receive (tm : Timer) (s : σ) : Option (Recv × σ × List (Turn ι)) :=
      match rproc turn.input s with
      | (.again,s) => sendrecvLoop turns
          {tm with t := turn.now, tleft := tm.tleft-(turn.now-tm.tlast), tlast := turn.now} s
      | (r,s) => some (r,s,turns)
    if tm.tleft ≤ 0 then
      if maxtmo ≤ tm.tmo then some (.error etimedout,s,turn :: turns)
      else
        let tmo := min (tm.tmo+mintmo) maxtmo
        if turn.sent then receive ⟨tm.t,tmo,tm.t,tm.tmo⟩ (sproc s)
        else sendrecvLoop turns ⟨tm.t,tmo,tm.tlast,0⟩ s
    else receive tm s

def sendrecv (turns : List (Turn ι)) (s : σ) : Option (Recv × σ × List (Turn ι)) :=
  match turns with
  | [] => none
  | turn :: _ => sendrecvLoop sproc rproc turns ⟨turn.start,mintmo,0,0⟩ s

/-- `K` holds of everything that is received, in the state in which it is received. -/
def SendrecvMeets (K : σ → ι → Prop) : List (Turn ι) → Timer → σ → Prop
  | [], _, _ => True
  | turn :: turns, tm, s =>
    let receive (tm : Timer) (s : σ) : Prop :=
      K s turn.input ∧
        match rproc turn.input s with
        | (.again,s) => SendrecvMeets K turns
            {tm with t := turn.now, tleft := tm.tleft-(turn.now-tm.tlast), tlast := turn.now} s
        | _ => True
    if tm.tleft ≤ 0 then
      if maxtmo ≤ tm.tmo then True
      else
        let tmo := min (tm.tmo+mintmo) maxtmo
        if turn.sent then receive ⟨tm.t,tmo,tm.t,tm.tmo⟩ (sproc s)
        else SendrecvMeets K turns ⟨tm.t,tmo,tm.tlast,0⟩ s
    else receive tm s

/-- The same for `sendrecv`. -/
def Meets (K : σ → ι → Prop) (turns : List (Turn ι)) (s : σ) : Prop :=
  match turns with
  | [] => True
  | turn :: _ => SendrecvMeets sproc rproc K turns ⟨turn.start,mintmo,0,0⟩ s

attribute [local grind =] sendrecvLoop SendrecvMeets

end Code

section Rule
variable {σ ι : Type*} {sproc : σ → σ} {rproc : ι → σ → Recv × σ} {I : σ → Prop} {K L : σ → ι → Prop}
  {Q : Recv → σ → Prop}

theorem SendrecvMeets.mono (h : ∀ s i, K s i → L s i) (turns : List (Turn ι)) (tm : Timer) (s : σ)
    (hm : SendrecvMeets sproc rproc K turns tm s) : SendrecvMeets sproc rproc L turns tm s := by
  induction turns generalizing tm s with
  | nil => trivial
  | cons turn turns ih =>
    have hreceive : ∀ (tm : Timer) (s : σ),
        (K s turn.input ∧ match rproc turn.input s with
          | (.again,s) => SendrecvMeets sproc rproc K turns tm s
          | _ => True) →
        (L s turn.input ∧ match rproc turn.input s with
          | (.again,s) => SendrecvMeets sproc rproc L turns tm s
          | _ => True) := by
      intro tm s hr
      refine ⟨h _ _ hr.1,?_⟩
      have hrest := hr.2
      split at hrest
      · exact ih _ _ hrest
      · trivial
    simp only [SendrecvMeets] at hm ⊢
    split_ifs at hm ⊢
    · exact hreceive _ _ hm
    · exact ih _ _ hm
    · exact hreceive _ _ hm

theorem Meets.mono (h : ∀ s i, K s i → L s i) {turns : List (Turn ι)} {s : σ}
    (hm : Meets sproc rproc K turns s) : Meets sproc rproc L turns s := by
  cases turns with
  | nil => trivial
  | cons turn turns => exact SendrecvMeets.mono h _ _ _ hm

/-- What holds of every input holds of what is received. -/
theorem SendrecvMeets.of_forall {P : ι → Prop} (turns : List (Turn ι)) (tm : Timer) (s : σ)
    (hp : ∀ turn ∈ turns, P turn.input) : SendrecvMeets sproc rproc (fun _ i => P i) turns tm s := by
  induction turns generalizing tm s with
  | nil => trivial
  | cons turn turns ih =>
    have hin : P turn.input := hp turn List.mem_cons_self
    have hrest : ∀ t ∈ turns, P t.input := fun t ht => hp t (List.mem_cons_of_mem _ ht)
    simp only [SendrecvMeets]
    split_ifs
    · refine ⟨hin,?_⟩
      split
      · exact ih _ _ hrest
      · trivial
    · exact ih _ _ hrest
    · refine ⟨hin,?_⟩
      split
      · exact ih _ _ hrest
      · trivial

/-- A condition that sending and every receipt that does not end the exchange keep holds up to its end. -/
theorem sendrecvLoop_rule (hsend : ∀ s, I s → I (sproc s))
    (hagain : ∀ i s s', K s i → I s → rproc i s = (.again,s') → I s')
    (hend : ∀ i s r s', K s i → I s → rproc i s = (r,s') → r ≠ .again → Q r s')
    (hlate : ∀ s, I s → Q (.error etimedout) s) (turns : List (Turn ι)) (tm : Timer) (s : σ)
    (hok : SendrecvMeets sproc rproc K turns tm s) (hs : I s) {r : Recv} {s' : σ} {rest : List (Turn ι)}
    (h : sendrecvLoop sproc rproc turns tm s = some (r,s',rest)) : Q r s' ∧ rest <:+ turns := by
  induction turns generalizing tm s with
  | nil => cases h
  | cons turn turns ih =>
    have hreceive : ∀ (tm : Timer) (s : σ), I s →
        (K s turn.input ∧ match rproc turn.input s with
          | (.again,s) => SendrecvMeets sproc rproc K turns tm s
          | _ => True) →
        (match rproc turn.input s with
          | (.again,s) => sendrecvLoop sproc rproc turns tm s
          | (r,s) => some (r,s,turns)) = some (r,s',rest) → Q r s' ∧ rest <:+ turn :: turns := by
      intro tm s hs hok h
      obtain ⟨hin,hok⟩ := hok
      split at h
      · rename_i s₁ hr
        rw [hr] at hok
        obtain ⟨hq,hsuf⟩ := ih _ _ hok (hagain _ _ _ hin hs hr) h
        exact ⟨hq,hsuf.trans (List.suffix_cons _ _)⟩
      · rename_i r₁ s₁ hne hr
        obtain ⟨rfl,rfl,rfl⟩ : r₁ = r ∧ s₁ = s' ∧ turns = rest := by simpa using h
        exact ⟨hend _ _ _ _ hin hs hr hne,List.suffix_cons _ _⟩
    simp only [sendrecvLoop] at h
    simp only [SendrecvMeets] at hok
    split_ifs at h hok
    · obtain ⟨rfl,rfl,rfl⟩ : Recv.error etimedout = r ∧ s = s' ∧ turn :: turns = rest := by simpa using h
      exact ⟨hlate _ hs,List.suffix_refl _⟩
    · exact hreceive _ _ (hsend _ hs) hok h
    · obtain ⟨hq,hsuf⟩ := ih _ _ hok hs h
      exact ⟨hq,hsuf.trans (List.suffix_cons _ _)⟩
    · exact hreceive _ _ hs hok h

theorem sendrecv_rule (hsend : ∀ s, I s → I (sproc s))
    (hagain : ∀ i s s', K s i → I s → rproc i s = (.again,s') → I s')
    (hend : ∀ i s r s', K s i → I s → rproc i s = (r,s') → r ≠ .again → Q r s')
    (hlate : ∀ s, I s → Q (.error etimedout) s) {turns : List (Turn ι)} {s : σ}
    (hok : Meets sproc rproc K turns s) (hs : I s) {r : Recv} {s' : σ} {rest : List (Turn ι)}
    (h : sendrecv sproc rproc turns s = some (r,s',rest)) : Q r s' ∧ rest <:+ turns := by
  cases turns with
  | nil => cases h
  | cons turn turns =>
    rw [sendrecv] at h
    exact sendrecvLoop_rule hsend hagain hend hlate _ _ _ hok hs h

/-- The first answer is the one that is waited for. -/
theorem sendrecv_first {turn : Turn ι} (turns : List (Turn ι)) {s s' : σ} {r : Recv} (hsent : turn.sent = true)
    (h : rproc turn.input (sproc s) = (r,s')) (hr : r ≠ .again) :
    sendrecv sproc rproc (turn :: turns) s = some (r,s',turns) := by
  rw [sendrecv,sendrecvLoop]
  dsimp only
  rw [if_pos (le_refl 0),if_neg (by decide),if_pos hsent,h]
  cases r with
  | got n => rfl
  | again => exact absurd rfl hr
  | error e => rfl

theorem Meets.first {turn : Turn ι} (turns : List (Turn ι)) {s s' : σ} {r : Recv} (hsent : turn.sent = true)
    (h : rproc turn.input (sproc s) = (r,s')) (hr : r ≠ .again) (hok : K (sproc s) turn.input) :
    Meets sproc rproc K (turn :: turns) s := by
  rw [Meets,SendrecvMeets]
  dsimp only
  rw [if_pos (le_refl 0),if_neg (by decide),if_pos hsent,h]
  cases r with
  | got n => exact ⟨hok,trivial⟩
  | again => exact absurd rfl hr
  | error e => exact ⟨hok,trivial⟩

/-- The rule for a condition on the inputs alone. -/
theorem sendrecv_rule_forall {P : ι → Prop} (hsend : ∀ s, I s → I (sproc s))
    (hagain : ∀ i s s', P i → I s → rproc i s = (.again,s') → I s')
    (hend : ∀ i s r s', P i → I s → rproc i s = (r,s') → r ≠ .again → Q r s')
    (hlate : ∀ s, I s → Q (.error etimedout) s) {turns : List (Turn ι)} {s : σ}
    (hok : ∀ turn ∈ turns, P turn.input) (hs : I s) {r : Recv} {s' : σ} {rest : List (Turn ι)}
    (h : sendrecv sproc rproc turns s = some (r,s',rest)) : Q r s' ∧ rest <:+ turns := by
  refine sendrecv_rule (K := fun _ i => P i) hsend hagain hend hlate ?_ hs h
  cases turns with
  | nil => trivial
  | cons turn turns => exact SendrecvMeets.of_forall _ _ _ hok

end Rule

section Simulation
variable {σ τ ι : Type*} {sproc : σ → σ} {rproc : ι → σ → Recv × σ} {sproc' : τ → τ} {rproc' : ι → τ → Recv × τ}
  {R E : σ → τ → Prop}

/-- Two receive routines that tell the same of every input end the exchange together. -/
theorem sendrecvLoop_sim (hsend : ∀ s t, R s t → R (sproc s) (sproc' t))
    (hrecv : ∀ i s t, R s t → (rproc i s).1 = (rproc' i t).1 ∧
      if (rproc' i t).1 = .again then R (rproc i s).2 (rproc' i t).2 else E (rproc i s).2 (rproc' i t).2)
    (hlate : ∀ s t, R s t → E s t) (turns : List (Turn ι)) (tm : Timer) (s : σ) (t : τ) (hR : R s t) {r : Recv} {t' : τ}
    {rest : List (Turn ι)} (h : sendrecvLoop sproc' rproc' turns tm t = some (r,t',rest)) :
    ∃ s', sendrecvLoop sproc rproc turns tm s = some (r,s',rest) ∧ E s' t' := by
  induction turns generalizing tm s t with
  | nil => cases h
  | cons turn turns ih =>
    have hreceive : ∀ (tm : Timer) (s : σ) (t : τ), R s t →
        (match rproc' turn.input t with
          | (.again,t) => sendrecvLoop sproc' rproc' turns tm t
          | (r,t) => some (r,t,turns)) = some (r,t',rest) →
        ∃ s', (match rproc turn.input s with
          | (.again,s) => sendrecvLoop sproc rproc turns tm s
          | (r,s) => some (r,s,turns)) = some (r,s',rest) ∧ E s' t' := by
      intro tm s t hR h
      obtain ⟨hsame,hnext⟩ := hrecv turn.input s t hR
      rcases hr : rproc turn.input s with ⟨r₁,s₁⟩
      rcases hr' : rproc' turn.input t with ⟨r₂,t₂⟩
      rw [hr,hr'] at hsame hnext
      rw [hr'] at h
      obtain rfl : r₁ = r₂ := hsame
      cases r₁ with
      | got n =>
        obtain ⟨rfl,rfl,rfl⟩ : Recv.got n = r ∧ t₂ = t' ∧ turns = rest := by simpa using h
        exact ⟨s₁,rfl,hnext⟩
      | again => exact ih tm s₁ t₂ hnext h
      | error e =>
        obtain ⟨rfl,rfl,rfl⟩ : Recv.error e = r ∧ t₂ = t' ∧ turns = rest := by simpa using h
        exact ⟨s₁,rfl,hnext⟩
    simp only [sendrecvLoop] at h ⊢
    split_ifs at h ⊢
    · obtain ⟨rfl,rfl,rfl⟩ : Recv.error etimedout = r ∧ t = t' ∧ turn :: turns = rest := by simpa using h
      exact ⟨s,rfl,hlate s t hR⟩
    · exact hreceive _ _ _ (hsend s t hR) h
    · exact ih _ _ _ hR h
    · exact hreceive _ _ _ hR h

theorem sendrecv_sim (hsend : ∀ s t, R s t → R (sproc s) (sproc' t))
    (hrecv : ∀ i s t, R s t → (rproc i s).1 = (rproc' i t).1 ∧
      if (rproc' i t).1 = .again then R (rproc i s).2 (rproc' i t).2 else E (rproc i s).2 (rproc' i t).2)
    (hlate : ∀ s t, R s t → E s t) {turns : List (Turn ι)} {s : σ} {t : τ} (hR : R s t) {r : Recv} {t' : τ}
    {rest : List (Turn ι)} (h : sendrecv sproc' rproc' turns t = some (r,t',rest)) :
    ∃ s', sendrecv sproc rproc turns s = some (r,s',rest) ∧ E s' t' := by
  cases turns with
  | nil => cases h
  | cons turn turns =>
    rw [sendrecv] at h ⊢
    exact sendrecvLoop_sim hsend hrecv hlate _ _ _ _ hR h

end Simulation

end Blub.Stand
