import Blub.Stand.Hammer2Lookup

/-! Lookups while reads of the device fail. Up to the first of them a call goes as it does when none fails, and then
`h2lookup` returns -1 and stores no pointer. -/
namespace Blub.Stand

/-- The state with other outcomes of the reads to come. -/
def H2.meets (s : H2) (io : List Outcome) : H2 := {s with io := io}

/-- The first `n` reads succeed. -/
def NoFault (n : ℕ) (io : List Outcome) : Prop := ∀ o ∈ io.take n, o = .done

theorem noFault_add (m n : ℕ) (io : List Outcome) : NoFault (m+n) io ↔ NoFault m io ∧ NoFault n (io.drop m) := by
  simp only [NoFault,List.take_add,List.mem_append,or_imp,forall_and]

theorem noFault_zero (io : List Outcome) : NoFault 0 io := by
  intro o ho
  rw [List.take_zero] at ho
  cases ho

theorem noFault_one (io : List Outcome) : NoFault 1 io ↔ io.headD .done = .done := by
  cases io <;> simp [NoFault]

/-- The reads `l` come between two states, and none of them fails. -/
structure Passes (t t' : H2) (l : List H2Read) : Prop where
  io : t'.io = []
  log : t'.log = t.log ++ l
  ok : ∀ e ∈ l, e.ok = true

/-- From `t`, where no read fails, `f` comes to `t'` with `a`. With any reads to come it does so too, unless one of those
that it makes fails: then what it returns is bad. -/
def Follows {α : Type} (bad : α → Prop) (f : H2 → Option (α × H2)) (t : H2) (a : α) (t' : H2) : Prop :=
  f t = some (a,t') ∧ ∃ l, Passes t t' l ∧ ∀ io,
    (NoFault l.length io ∧ f (t.meets io) = some (a,t'.meets (io.drop l.length))) ∨
    (¬NoFault l.length io ∧ ∃ b s', f (t.meets io) = some (b,s') ∧ bad b)

section Follow
variable {α β : Type} {bad : α → Prop} {bad' : β → Prop} {t t₁ t₂ : H2} {a : α} {b : β}

theorem Passes.trans {l l' : List H2Read} (h : Passes t t₁ l) (h' : Passes t₁ t₂ l') : Passes t t₂ (l ++ l') where
  io := h'.io
  log := by rw [h'.log,h.log,List.append_assoc]
  ok e he := by
    obtain he | he := List.mem_append.mp he
    · exact h.ok e he
    · exact h'.ok e he

theorem Follows.passes {f : H2 → Option (α × H2)} (h : Follows bad f t a t₁) : ∃ l, Passes t t₁ l := by
  obtain ⟨-,l,hl,-⟩ := h
  exact ⟨l,hl⟩

/-- A step without a read. -/
theorem Follows.modify (ht : t.io = []) (g : H2 → H2) (hlog : (g t).log = t.log)
    (hg : ∀ io, g (t.meets io) = (g t).meets io) : Follows bad (fun s => some (a,g s)) t a (g t) := by
  have hio : (g t).io = [] := by
    have h := congrArg H2.io (hg [])
    rwa [show t.meets [] = t by rw [← ht]; rfl] at h
  refine ⟨rfl,[],⟨hio,by rw [hlog,List.append_nil],nofun⟩,fun io => ?_⟩
  dsimp only
  rw [hg]
  exact .inl ⟨noFault_zero io,rfl⟩

theorem Follows.pure (ht : t.io = []) : Follows bad (fun s => some (a,s)) t a t :=
  Follows.modify ht id rfl fun _ => rfl

theorem Follows.congr {f g : H2 → Option (α × H2)} (h : Follows bad f t a t₁)
    (hfg : ∀ io, g (t.meets io) = f (t.meets io)) : Follows bad g t a t₁ := by
  obtain ⟨hf,l,hl,hio⟩ := h
  exact ⟨(hfg t.io).trans hf,l,hl,fun io => by rw [hfg]; exact hio io⟩

/-- Two steps. What is bad after the first is bad after both. -/
theorem Follows.bind {f : H2 → Option (α × H2)} {k : α → H2 → Option (β × H2)} (h : Follows bad f t a t₁)
    (hk : Follows bad' (k a) t₁ b t₂) (hbad : ∀ c s, bad c → ∃ b s', k c s = some (b,s') ∧ bad' b) :
    Follows bad' (fun s => (f s).bind fun r => k r.1 r.2) t b t₂ := by
  obtain ⟨hf,l,hl,hio⟩ := h
  obtain ⟨hf',l',hl',hio'⟩ := hk
  refine ⟨by dsimp only; rw [hf]; exact hf',l ++ l',hl.trans hl',fun io => ?_⟩
  rw [List.length_append,noFault_add]
  dsimp only
  obtain ⟨hc,heq⟩ | ⟨hc,c,s,heq,hb⟩ := hio io
  · rw [heq,Option.bind_some]
    obtain ⟨hc',heq'⟩ | ⟨hc',b',s',heq',hb'⟩ := hio' (io.drop l.length)
    · rw [List.drop_drop] at heq'
      exact .inl ⟨⟨hc,hc'⟩,heq'⟩
    · exact .inr ⟨fun h => hc' h.2,b',s',heq',hb'⟩
  · rw [heq,Option.bind_some]
    exact .inr ⟨fun h => hc h.1,hbad c s hb⟩

end Follow

section Calls
variable {L : H2Layout} {v : H2Volume} {t : H2}

theorem h2read_follows {n : ℕ} (hn : 0 < n) (off : ℕ) (ht : t.io = []) :
    Follows (· = false) (fun s => some (h2read v n off s)) t true (h2read v n off t).2 := by
  have hdone : (h2read v n off t).1 = true := h2read_done v (by rw [H2.Done,ht]; exact fun o ho => nomatch ho)
  refine ⟨congrArg some (Prod.ext hdone rfl),_,⟨by simp [h2read,ht],rfl,?_⟩,fun io => ?_⟩
  · intro e he
    rw [List.mem_singleton] at he
    rw [he]
    exact hdone
  · rw [List.length_singleton,noFault_one]
    by_cases ho : io.headD .done = .done
    · left
      refine ⟨ho,?_⟩
      unfold h2read H2.meets
      dsimp only
      rw [ho,ht]
      simp [strategy]
    · refine .inr ⟨ho,_,_,rfl,?_⟩
      change decide _ = false
      rw [decide_eq_false_iff_not]
      exact fun hok => ho (strategy_complete hn hok.1 hok.2)

theorem h2reload_follows (base : Bref) (ht : t.io = []) :
    Follows (· = false) (fun s => some (h2reload v base s)) t true (h2reload v base t).2 := by
  by_cases hload : base.type ≠ .volume ∧ base.dataOff ≠ t.savedBase
  · have hread := h2read_follows (v := v) (blocksize_pos base) (blockoff base) ht
    obtain ⟨l,hl⟩ := hread.passes
    have hset : Follows (· = false) (fun s => some (true,{s with savedBase := base.dataOff}))
        (h2read v (blocksize base) (blockoff base) t).2 true _ :=
      Follows.modify hl.io (fun s => {s with savedBase := base.dataOff}) rfl fun _ => rfl
    have hboth := hread.bind (k := fun b s => some (if b then (true,{s with savedBase := base.dataOff}) else (false,s)))
      hset (by rintro c s rfl; exact ⟨_,_,rfl,rfl⟩)
    have hok : (h2read v (blocksize base) (blockoff base) t).1 = true := congrArg Prod.fst (Option.some.inj hread.1)
    have hend : (h2reload v base t).2 = {(h2read v (blocksize base) (blockoff base) t).2 with savedBase := base.dataOff} := by
      rw [h2reload,if_pos hload]
      dsimp only
      rw [if_pos hok]
    rw [hend]
    refine hboth.congr fun io => ?_
    rw [h2reload,if_pos (show base.type ≠ .volume ∧ base.dataOff ≠ (t.meets io).savedBase from hload)]
    rfl
  · have hend : h2reload v base t = (true,t) := by rw [h2reload,if_neg hload]
    rw [hend]
    refine (Follows.pure ht).congr fun io => ?_
    rw [h2reload,if_neg (show ¬(base.type ≠ .volume ∧ base.dataOff ≠ (t.meets io).savedBase) from hload)]

/-- What a scan does after a block is there, or not. -/
def scanRest (L : H2Layout) (v : H2Volume) (base : Bref) (keyBeg keyEnd k i : ℕ) (best : Bref) (loaded : Bool) (s : H2) : H2Scan × H2 :=
  if loaded then
    if isDirect L base s.media then (.embedded,s)
    else h2scan L v base keyBeg keyEnd k (i+1) (bestStep keyBeg keyEnd best (refAt L v base s.media i)) s
  else (.failed,s)

theorem h2scan_follows (base : Bref) (keyBeg keyEnd k i : ℕ) (best : Bref) (ht : t.io = []) :
    Follows (· = .failed) (fun s => some (h2scan L v base keyBeg keyEnd k i best s)) t
      (h2scan L v base keyBeg keyEnd k i best t).1 (h2scan L v base keyBeg keyEnd k i best t).2 := by
  induction k generalizing i best t with
  | zero => exact Follows.pure ht
  | succ k ih =>
    have hload := h2reload_follows (v := v) base ht
    obtain ⟨l,hl⟩ := hload.passes
    have hok : (h2reload v base t).1 = true := congrArg Prod.fst (Option.some.inj hload.1)
    have hrest : Follows (· = .failed) (fun s => some (scanRest L v base keyBeg keyEnd k i best true s)) (h2reload v base t).2
        (scanRest L v base keyBeg keyEnd k i best true (h2reload v base t).2).1
        (scanRest L v base keyBeg keyEnd k i best true (h2reload v base t).2).2 := by
      by_cases hdir : isDirect L base (h2reload v base t).2.media
      · have hend : scanRest L v base keyBeg keyEnd k i best true (h2reload v base t).2 = (.embedded,(h2reload v base t).2) :=
          if_pos hdir
        rw [hend]
        exact (Follows.pure hl.io).congr fun io => congrArg some (if_pos hdir)
      · have hend : scanRest L v base keyBeg keyEnd k i best true (h2reload v base t).2 = h2scan L v base keyBeg keyEnd k (i+1)
            (bestStep keyBeg keyEnd best (refAt L v base (h2reload v base t).2.media i)) (h2reload v base t).2 := if_neg hdir
        rw [hend]
        exact (ih (i+1) _ hl.io).congr fun io => congrArg some (if_neg hdir)
    have hend : h2scan L v base keyBeg keyEnd (k+1) i best t =
        scanRest L v base keyBeg keyEnd k i best true (h2reload v base t).2 := by
      rw [h2scan]
      simp only [hok]
      rfl
    rw [hend]
    refine (hload.bind (k := fun b s => some (scanRest L v base keyBeg keyEnd k i best b s)) hrest ?_).congr fun io => rfl
    rintro c s rfl
    exact ⟨_,_,rfl,rfl⟩

theorem h2leaf_follows (best : Bref) (ht : t.io = []) :
    Follows (· = false) (fun s => some (h2leaf L v best s)) t true (h2leaf L v best t).2 := by
  have hread := h2read_follows (v := v) (devBsize_pos L best) (blockoff best-blockoff best%2^L.lbufRadix) ht
  obtain ⟨l,hl⟩ := hread.passes
  have hset : Follows (· = false) (fun s => some (true,{s with savedBase := noBase})) _ true _ :=
    Follows.modify hl.io (fun s => {s with savedBase := noBase}) rfl fun _ => rfl
  have hok := congrArg Prod.fst (Option.some.inj hread.1)
  have hend : (h2leaf L v best t).2 = {(h2read v (devBsize L best)
      (blockoff best-blockoff best%2^L.lbufRadix) t).2 with savedBase := noBase} := by
    unfold h2leaf
    dsimp only at hok ⊢
    rw [if_pos hok]
  rw [hend]
  refine (hread.bind (k := fun b s => some (if b then (true,{s with savedBase := noBase}) else (false,s))) hset ?_).congr
    fun io => rfl
  rintro c s rfl
  exact ⟨_,_,rfl,rfl⟩

/-- A lookup that a read fails in. -/
def H2Found.Unread (f : H2Found) : Prop := f.rc = -1 ∧ f.ptr = none

/-- What `h2lookup` does after the block of a leaf is read, or not. -/
def leafRest (L : H2Layout) (ret best : Bref) (loaded : Bool) (s : H2) : Option (H2Found × H2) :=
  if loaded then some (⟨blockInt best,best,some (blockoff best%2^L.lbufRadix)⟩,s) else some (⟨-1,ret,none⟩,s)

/-- After an indirect block has been looked through. -/
def downRest (L : H2Layout) (v : H2Volume) (unset : ℤ) (fuel : ℕ) (base : Bref) (keyEnd : ℕ) (best : Bref) (f : H2Found) (s : H2) :
    Option (H2Found × H2) :=
  if f.rc = 0 then
    if best.key < nextKey best ∧ nextKey best ≤ keyEnd then h2lookup L v unset fuel base (nextKey best) keyEnd f.bref s
    else some (f,s)
  else some (f,s)

/-- After a scan. -/
def scanned (L : H2Layout) (v : H2Volume) (unset : ℤ) (fuel : ℕ) (base : Bref) (keyBeg keyEnd : ℕ) (ret : Bref) :
    H2Scan → H2 → Option (H2Found × H2)
  | .failed, s => some (⟨-1,ret,none⟩,s)
  | .embedded, s => some (⟨L.embeddedBytes,{ret with type := .data, key := 0},some L.embeddedBytes⟩,s)
  | .best best, s =>
    match best.type with
    | .empty => some (⟨0,ret,none⟩,s)
    | .indirect => (h2lookup L v unset fuel best keyBeg keyEnd ret s).bind fun r => downRest L v unset fuel base keyEnd best r.1 r.2
    | .inode | .data => (some (h2leaf L v best s)).bind fun r => leafRest L ret best r.1 r.2
    | _ => some (⟨unset,ret,none⟩,s)

attribute [local grind =] scanned

theorem h2lookup_eq (unset : ℤ) (fuel : ℕ) {base : Bref} (hname : base.dataOff ≠ noBase) (keyBeg keyEnd : ℕ) (ret : Bref) (s : H2) :
    h2lookup L v unset (fuel+1) base keyBeg keyEnd ret s =
      (some (h2scan L v base keyBeg keyEnd (scanCount L base) 0 noBest s)).bind fun r =>
        scanned L v unset fuel base keyBeg keyEnd ret r.1 r.2 := by
  rw [h2lookup,if_neg hname,Option.bind_some]
  generalize h2scan L v base keyBeg keyEnd (scanCount L base) 0 noBest s = r
  obtain ⟨sc,s₁⟩ := r
  cases sc with
  | failed => rfl
  | embedded => rfl
  | best best =>
    dsimp only [scanned]
    cases ht : best.type with
    | indirect =>
      dsimp only
      cases h2lookup L v unset fuel best keyBeg keyEnd ret s₁ <;> rfl
    | _ => rfl

theorem leafRest_follows {ret best : Bref} {f : H2Found} {t' : H2} (ht : t.io = [])
    (h : (some (h2leaf L v best t)).bind (fun r => leafRest L ret best r.1 r.2) = some (f,t')) :
    Follows H2Found.Unread (fun s => (some (h2leaf L v best s)).bind fun r => leafRest L ret best r.1 r.2) t f t' := by
  have hread := h2leaf_follows (L := L) (v := v) best ht
  obtain ⟨l,hl⟩ := hread.passes
  have hok : (h2leaf L v best t).1 = true := congrArg Prod.fst (Option.some.inj hread.1)
  rw [Option.bind_some,leafRest,if_pos hok] at h
  cases h
  apply hread.bind (k := leafRest L ret best)
  · exact (Follows.pure hl.io).congr fun io => if_pos rfl
  · rintro c s rfl
    exact ⟨_,_,rfl,rfl,rfl⟩

/-- `h2lookup` returns what it does when no read fails, or -1 after the first read that fails. -/
theorem h2lookup_follows (unset : ℤ) (fuel : ℕ) (base : Bref) (keyBeg keyEnd : ℕ) (ret : Bref) (ht : t.io = []) {f : H2Found}
    {t' : H2} (h : h2lookup L v unset fuel base keyBeg keyEnd ret t = some (f,t')) :
    Follows H2Found.Unread (h2lookup L v unset fuel base keyBeg keyEnd ret) t f t' := by
  induction fuel generalizing base keyBeg ret t f t' with
  | zero => cases h
  | succ fuel ih =>
    by_cases hname : base.dataOff = noBase
    · rw [h2lookup,if_pos hname] at h
      cases h
      refine (Follows.pure ht).congr fun io => ?_
      rw [h2lookup,if_pos hname]
    have hscan := h2scan_follows (L := L) (v := v) base keyBeg keyEnd (scanCount L base) 0 noBest ht
    obtain ⟨l,hl⟩ := hscan.passes
    rw [h2lookup_eq unset fuel hname,Option.bind_some] at h
    refine (hscan.bind (k := scanned L v unset fuel base keyBeg keyEnd ret) ?_ ?_).congr
      fun io => h2lookup_eq unset fuel hname keyBeg keyEnd ret _
    · generalize h2scan L v base keyBeg keyEnd (scanCount L base) 0 noBest t = r at h hl ⊢
      obtain ⟨sc,t₁⟩ := r
      have hio : t₁.io = [] := hl.io
      dsimp only at h ⊢
      cases sc with
      | failed =>
        cases h
        exact Follows.pure hio
      | embedded =>
        cases h
        exact Follows.pure hio
      | best best =>
        unfold scanned at h ⊢
        dsimp only at h ⊢
        cases htype : best.type with
        | inode =>
          rw [htype] at h
          exact leafRest_follows hio h
        | data =>
          rw [htype] at h
          exact leafRest_follows hio h
        | indirect =>
          rw [htype] at h
          dsimp only at h ⊢
          cases hd : h2lookup L v unset fuel best keyBeg keyEnd ret t₁ with
          | none =>
            rw [hd] at h
            cases h
          | some down =>
            obtain ⟨g,t₂⟩ := down
            have hdown := ih best keyBeg ret hio hd
            obtain ⟨l',hl'⟩ := hdown.passes
            rw [hd,Option.bind_some] at h
            apply hdown.bind (k := downRest L v unset fuel base keyEnd best)
            · unfold downRest at h ⊢
              dsimp only at h
              split_ifs at h ⊢ with hrc hnext
              · exact ih base (nextKey best) g.bref hl'.io h
              · cases h
                exact Follows.pure hl'.io
              · cases h
                exact Follows.pure hl'.io
            · intro c s hc
              refine ⟨c,s,?_,hc⟩
              rw [downRest,if_neg (by rw [hc.1]; decide)]
        | _ =>
          rw [htype] at h
          cases h
          exact Follows.pure hio
    · rintro c s rfl
      exact ⟨_,_,rfl,rfl,rfl⟩

end Calls

end Blub.Stand
