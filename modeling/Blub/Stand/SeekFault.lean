import Blub.Stand.ReadAhead

/-! What a failed `lseek` leaves of the read-ahead buffer: the file is at the same place for the reads that follow only if
the call fails before the buffer is dropped. -/
namespace Blub.Stand.SeekFault
open Blub.Trace

section Code
variable {τ : Type*} (ops : FsOps τ) (other : τ → ℤ → ℤ × τ)

/-- `lseek` with any `where`; none of the three goes to `fo_seek` as it is, through `other`. -/
def lseekWhere (f : OpenFile τ) (offset : ℤ) : Option Whence → ℤ × OpenFile τ
  | some whence => lseek ops f offset whence
  | none =>
    if f.canRead = false ∧ f.canWrite = false ∧ f.raw = false then (-1,f)
    else if f.raw then (-1,f)
    else if f.ralen ≠ 0 then (-1,{f with fsdata := (ops.foSeek f.fsdata 0 .cur).2})
    else
      let r := other f.fsdata offset
      (r.1,{f with ralen := 0, fsdata := r.2})

/-- The call does not get to drop bytes of the buffer. -/
def KeepsBuffer (f : OpenFile τ) (whence : Option Whence) : Prop :=
  f.ralen = 0 ∨ whence = none ∨ whence ≠ some .end ∧ (ops.foSeek f.fsdata 0 .cur).1 = -1

/-- The reads that follow store the same bytes and return the same. -/
def SameReads (f f' : OpenFile τ) : Prop :=
  ∀ fuel (counts : List ℕ), answers (fileStep ops fuel) f (counts.map .read) =
    answers (fileStep ops fuel) f' (counts.map .read)

/-- A file system that reads from a place of its own, which a rejected seek and a question for it leave. -/
structure Rejects {σ : Type*} (place : τ → σ) : Prop where
  read (t t' : τ) (n : ℕ) : place t = place t' → (ops.foRead t n).1 = (ops.foRead t' n).1 ∧
    place (ops.foRead t n).2 = place (ops.foRead t' n).2
  seek (t : τ) (offset : ℤ) (whence : Whence) : (ops.foSeek t offset whence).1 = -1 →
    place (ops.foSeek t offset whence).2 = place t
  seek_other (t : τ) (offset : ℤ) : (other t offset).1 = -1 → place (other t offset).2 = place t
  tell (t : τ) : place (ops.foSeek t 0 .cur).2 = place t

end Code

section Alike
variable {τ σ : Type*} {ops : FsOps τ} {other : τ → ℤ → ℤ × τ} {place : τ → σ}

theorem readLoop_alike (h : Rejects ops other place) (bcount fuel : ℕ) (f : OpenFile τ) (t : τ)
    (ht : place t = place f.fsdata) (resid : ℕ) (dest : List UInt8) :
    (readLoop ops bcount fuel {f with fsdata := t} resid dest = none ∧ readLoop ops bcount fuel f resid dest = none) ∨
      ∃ r g t', readLoop ops bcount fuel {f with fsdata := t} resid dest = some (r,{g with fsdata := t'}) ∧
        readLoop ops bcount fuel f resid dest = some (r,g) ∧ place t' = place g.fsdata ∧ g.raw = f.raw := by
  induction fuel generalizing f t resid dest with
  | zero => exact .inl ⟨rfl,rfl⟩
  | succ fuel ih =>
    have hread := fun n => (h.read t f.fsdata n ht).1
    have hplace := fun n => (h.read t f.fsdata n ht).2
    simp only [readLoop,hread]
    generalize sopenRasize = ra at *
    split_ifs
    · exact .inl ⟨rfl,rfl⟩
    · refine .inr ⟨_,_,t,?_,rfl,ht,rfl⟩
      rfl
    · refine .inr ⟨_,_,(ops.foRead t _).2,?_,rfl,hplace _,rfl⟩
      rfl
    · refine .inr ⟨_,_,(ops.foRead t _).2,?_,rfl,hplace _,rfl⟩
      rfl
    · refine .inr ⟨_,_,(ops.foRead t _).2,?_,rfl,hplace _,rfl⟩
      rfl
    · refine .inr ⟨_,_,(ops.foRead t _).2,?_,rfl,hplace _,rfl⟩
      rfl
    · exact ih {f with
        fsdata := (ops.foRead f.fsdata ra).2
        rabuf := (ops.foRead f.fsdata ra).1.data ++ f.rabuf.drop (ops.foRead f.fsdata ra).1.data.length
        raoffset := 0
        ralen := ra-(ops.foRead f.fsdata ra).1.resid} _ (hplace ra) _ _

/-- Two files alike in what the caller can read. -/
theorem sameReads_of_place (h : Rejects ops other place) {f : OpenFile τ} (hraw : f.raw = false) {t : τ}
    (ht : place t = place f.fsdata) : SameReads ops {f with fsdata := t} f := by
  intro fuel counts
  induction counts generalizing f t with
  | nil => rfl
  | cons n counts ih =>
    have hstep : ∀ g : OpenFile τ, g.raw = false → read ops fuel g n =
        if g.canRead = false then some (⟨-1,[]⟩,g) else readLoop ops n fuel g n [] := fun g hg => by
      rw [read,hg]
      rfl
    simp only [List.map_cons,answers,fileStep,hstep _ hraw]
    rw [hstep {f with fsdata := t} hraw]
    by_cases hcan : f.canRead = false
    · simp only [if_pos hcan]
      rw [ih hraw ht]
    · simp only [if_neg hcan]
      obtain ⟨hl,hr⟩ | ⟨r,g,t',hl,hr,hplace,hg⟩ := readLoop_alike h n fuel f t ht n []
      · rw [hl,hr]
        dsimp only
        rw [ih hraw ht]
      · rw [hl,hr]
        dsimp only
        rw [ih (hg.trans hraw) hplace]

end Alike

section Keeps
variable {τ σ : Type*} {ops : FsOps τ} {other : τ → ℤ → ℤ × τ} {place : τ → σ} {f : OpenFile τ} {offset : ℤ}

theorem lseekFs_place (h : Rejects ops other place) {whence : Whence} (hfail : (lseekFs ops f offset whence).1 = -1) :
    ∃ t, place t = place f.fsdata ∧ (lseekFs ops f offset whence).2 = {f with ralen := 0, fsdata := t} :=
  ⟨_,h.seek _ _ _ hfail,rfl⟩

theorem lseek_eq_lseekFs (hraw : f.raw = false) (hflags : f.canRead = true ∨ f.canWrite = true) {whence : Whence}
    (hbuf : ¬(f.ralen ≠ 0 ∧ whence ≠ .end)) : lseek ops f offset whence = lseekFs ops f offset whence := by
  unfold lseek
  rw [if_neg (by rintro ⟨hr,hw,-⟩; simp [hr,hw] at hflags),if_neg (by rw [hraw]; decide),if_neg hbuf]

/-- A call that fails before the buffer is dropped changes nothing that a read sees. -/
theorem keepsBuffer_place (h : Rejects ops other place) (hraw : f.raw = false) {whence : Option Whence}
    (hkeep : KeepsBuffer ops f whence) (hfail : (lseekWhere ops other f offset whence).1 = -1) :
    ∃ t, place t = place f.fsdata ∧ (lseekWhere ops other f offset whence).2 = {f with fsdata := t} := by
  have hempty : f.ralen = 0 → ∀ t : τ, ({f with ralen := 0, fsdata := t} : OpenFile τ) = {f with fsdata := t} := fun h0 t => by rw [← h0]
  by_cases hflags : f.canRead = false ∧ f.canWrite = false ∧ f.raw = false
  · refine ⟨f.fsdata,rfl,?_⟩
    cases whence with
    | none => rw [lseekWhere,if_pos hflags]
    | some whence =>
      simp only [lseekWhere]
      unfold lseek
      rw [if_pos hflags]
  cases whence with
  | none =>
    have hreg : ¬f.raw = true := by rw [hraw]; decide
    rw [lseekWhere,if_neg hflags,if_neg hreg] at hfail ⊢
    split_ifs at hfail ⊢ with hbuf
    · exact ⟨_,h.tell _,rfl⟩
    · exact ⟨_,h.seek_other _ _ hfail,hempty (not_not.mp hbuf) _⟩
  | some whence =>
    simp only [lseekWhere] at hfail ⊢
    have hopen : f.canRead = true ∨ f.canWrite = true := by
      by_contra hnone
      push Not at hnone
      exact hflags ⟨by simpa using hnone.1,by simpa using hnone.2,hraw⟩
    by_cases hbuf : f.ralen ≠ 0 ∧ whence ≠ .end
    · have hquery : (ops.foSeek f.fsdata 0 .cur).1 = -1 := by
        obtain h0 | hnone | ⟨-,hquery⟩ := hkeep
        · exact absurd h0 hbuf.1
        · cases hnone
        · exact hquery
      refine ⟨_,h.tell f.fsdata,?_⟩
      unfold lseek
      rw [if_neg hflags,if_neg (by rw [hraw]; decide),if_pos hbuf]
      dsimp only
      rw [if_pos hquery]
    · rw [lseek_eq_lseekFs hraw hopen hbuf] at hfail ⊢
      have h0 : f.ralen = 0 := by
        obtain h0 | hnone | ⟨hend,-⟩ := hkeep
        · exact h0
        · cases hnone
        · by_contra hne
          exact hbuf ⟨hne,fun he => hend (he ▸ rfl)⟩
      obtain ⟨t,ht,hres⟩ := lseekFs_place h hfail
      exact ⟨t,ht,by rw [hres,hempty h0]⟩

end Keeps

section Drops
variable {τ σ : Type*} {ops : FsOps τ} {other : τ → ℤ → ℤ × τ} {file : List UInt8} {p : ℕ} {f : OpenFile τ}

/-- The file system serves a file, and a question for its position is answered, or not at all. -/
structure ServesFile (ops : FsOps τ) (file : List UInt8) (pos : τ → ℕ) : Prop where
  read (t : τ) (n : ℕ) : ServesAt ops file pos t n
  tell (t : τ) : (ops.foSeek t 0 .cur).1 ≠ -1 → (ops.foSeek t 0 .cur).1 = pos t

/-- A call that fails later leaves the file behind what the buffer held. -/
theorem dropsBuffer_at {place : τ → σ} {pos : σ → ℕ} (h : Rejects ops other place)
    (hs : ServesFile ops file (pos ∘ place)) (hf : At file (pos ∘ place) f p) {offset : ℤ} {whence : Option Whence}
    (hdrop : ¬KeepsBuffer ops f whence) (hfail : (lseekWhere ops other f offset whence).1 = -1) :
    At file (pos ∘ place) (lseekWhere ops other f offset whence).2 (p+f.ralen) := by
  have hgone : ∀ t, place t = place f.fsdata → At file (pos ∘ place) {f with ralen := 0, fsdata := t} (p+f.ralen) :=
    fun t ht => ⟨hf.canRead,hf.regular,by simpa [ht] using hf.pos_eq,Nat.zero_le _,by simp,.inl rfl⟩
  simp only [KeepsBuffer,not_or,not_and] at hdrop
  obtain ⟨hne,hsome,hquery⟩ := hdrop
  cases whence with
  | none => exact absurd rfl hsome
  | some whence =>
    simp only [lseekWhere] at hfail ⊢
    by_cases hbuf : f.ralen ≠ 0 ∧ whence ≠ .end
    · have hfound := hquery fun he => hbuf.2 (Option.some.inj he)
      have htell := hs.tell f.fsdata hfound
      have hpos := hf.pos_eq
      unfold lseek at hfail ⊢
      rw [if_neg (by rw [hf.canRead]; simp),if_neg (by rw [hf.regular]; decide),if_pos hbuf] at hfail ⊢
      dsimp only at hfail ⊢
      rw [if_neg hfound] at hfail ⊢
      generalize (if whence = .set then offset else _) = target at hfail ⊢
      split_ifs at hfail ⊢ with hin
      · -- a place in the buffer is not -1
        dsimp only at hfail
        omega
      · obtain ⟨t,ht,hres⟩ := lseekFs_place h hfail
        rw [hres]
        exact hgone t (ht.trans (h.tell _))
    · rw [lseek_eq_lseekFs hf.regular (.inl hf.canRead) hbuf] at hfail ⊢
      obtain ⟨t,ht,hres⟩ := lseekFs_place h hfail
      rw [hres]
      exact hgone t ht

/-- Reads of single bytes store those of the file. -/
theorem answers_ones {pos : τ → ℕ} (hs : ServesFile ops file pos) (hf : At file pos f p) (k : ℕ) :
    answers (fileStep ops 2) f ((List.replicate k 1).map .read) =
      answers (plainStep file) p ((List.replicate k 1).map .read) := by
  have hones : Along (fileStep ops 2) (fun _ call => call = .read 1) f ((List.replicate k 1).map .read) := by
    clear hf
    induction k generalizing f with
    | zero => trivial
    | succ k ih => exact ⟨rfl,ih⟩
  refine answers_eq (At file pos) ?_ _ f p hf hones
  rintro g q call hg rfl
  obtain ⟨g',hrun,hat⟩ := read_spec hs.read hg 0 (n := 1) (by decide) fun h => absurd h one_ne_zero
  simp only [fileStep,hrun,plainStep]
  exact ⟨trivial,hat⟩

/-- Each byte before the end is stored. -/
theorem plain_ones {k : ℕ} (hk : p+k ≤ file.length) :
    some (.read ⟨0,[]⟩) ∉ answers (plainStep file) p ((List.replicate k 1).map .read) := by
  induction k generalizing p with
  | zero => exact List.not_mem_nil
  | succ k ih =>
    have hlen : ((file.drop p).take 1).length = 1 := by
      rw [List.length_take,List.length_drop]
      omega
    rw [List.replicate_succ,List.map_cons,answers]
    simp only [plainStep,hlen,List.mem_cons,not_or]
    exact ⟨by simp,ih (by omega)⟩

/-- The last of more reads than there are bytes stores nothing. -/
theorem plain_end {k : ℕ} (hp : p ≤ file.length) (hk : file.length < p+k) :
    some (.read ⟨0,[]⟩) ∈ answers (plainStep file) p ((List.replicate k 1).map .read) := by
  induction k generalizing p with
  | zero => omega
  | succ k ih =>
    rw [List.replicate_succ,List.map_cons,answers]
    simp only [plainStep]
    by_cases hend : p = file.length
    · simp [hend]
    · have hlen : ((file.drop p).take 1).length = 1 := by
        rw [List.length_take,List.length_drop]
        omega
      rw [hlen]
      exact List.mem_cons_of_mem _ (ih (by omega) (by omega))

theorem not_sameReads {pos : τ → ℕ} (hs : ServesFile ops file pos) {g : OpenFile τ} (hf : At file pos f p)
    (hne : f.ralen ≠ 0) (hg : At file pos g (p+f.ralen)) : ¬SameReads ops g f := by
  intro hsame
  have hinside : p+f.ralen ≤ file.length := hf.inside.resolve_left hne
  have hones := hsame 2 (List.replicate (file.length-(p+f.ralen)+1) 1)
  rw [answers_ones hs hf,answers_ones hs hg] at hones
  have hbefore : some (.read ⟨0,[]⟩) ∉
      answers (plainStep file) p ((List.replicate (file.length-(p+f.ralen)+1) 1).map .read) := plain_ones (by omega)
  rw [← hones] at hbefore
  exact hbefore (plain_end hinside (by omega))

end Drops

section Spec
variable {τ σ : Type*} {ops : FsOps τ} {other : τ → ℤ → ℤ × τ} {place : τ → σ}

/-- After a failed `lseek` on a regular file the reads go on as without it if the call fails before it drops the buffer,
and on a file that is served whole only then. -/
theorem lseek_failed_sameReads (h : Rejects ops other place) {f : OpenFile τ} (hraw : f.raw = false) (offset : ℤ)
    (whence : Option Whence) (hfail : (lseekWhere ops other f offset whence).1 = -1) :
    (KeepsBuffer ops f whence → SameReads ops (lseekWhere ops other f offset whence).2 f) ∧
      ∀ (file : List UInt8) (pos : σ → ℕ) (p : ℕ), ServesFile ops file (pos ∘ place) → At file (pos ∘ place) f p →
        (SameReads ops (lseekWhere ops other f offset whence).2 f ↔ KeepsBuffer ops f whence) := by
  have hkeep : KeepsBuffer ops f whence → SameReads ops (lseekWhere ops other f offset whence).2 f := fun hk => by
    obtain ⟨t,ht,hres⟩ := keepsBuffer_place h hraw hk hfail
    rw [hres]
    exact sameReads_of_place h hraw ht
  refine ⟨hkeep,fun file pos p hs hf => ⟨fun hsame => ?_,hkeep⟩⟩
  by_contra hdrop
  exact not_sameReads hs hf (fun h0 => hdrop (.inl h0)) (dropsBuffer_at h hs hf hdrop hfail) hsame

/-- Two bytes of three are in the buffer. -/
def partRead : OpenFile ℕ := {listFile 3 with rabuf := [1,2,3], raoffset := 1, ralen := 2}

def noWhence (p : ℕ) (_ : ℤ) : ℤ × ℕ := (-1,p)

theorem listOps_rejects (file : List UInt8) : Rejects (listOps file) noWhence id where
  read t t' n ht := by
    obtain rfl : t = t' := ht
    exact ⟨rfl,rfl⟩
  seek t offset whence hfail := by
    simp only [listOps] at hfail ⊢
    split_ifs at hfail ⊢ with hpos
    · dsimp only at hfail
      omega
    · rfl
  seek_other _ _ _ := rfl
  tell t := by simp [listOps,seekTarget]

theorem listOps_servesFile (file : List UInt8) : ServesFile (listOps file) file id where
  read := (listOps_serves file).at
  tell t _ := by simp [listOps,seekTarget]

theorem partRead_at : At [1,2,3] id partRead 1 :=
  ⟨rfl,rfl,rfl,by decide,rfl,.inr (by decide)⟩

theorem lseek_failed_sameReads_list :
    SameReads (listOps [1,2,3]) (lseek (listOps [1,2,3]) (listFile 0) (-5) .set).2 (listFile 0) ∧
      SameReads (listOps [1,2,3]) (lseekWhere (listOps [1,2,3]) noWhence partRead 0 none).2 partRead :=
  ⟨(lseek_failed_sameReads (listOps_rejects [1,2,3]) rfl (-5) (some .set) (by decide)).1 (.inl rfl),
    ((lseek_failed_sameReads (listOps_rejects [1,2,3]) rfl 0 none (by decide)).2 _ id 1 (listOps_servesFile [1,2,3])
      partRead_at).mpr (.inr (.inl rfl))⟩

/-- A seek in front of the file fails, and the two bytes of the buffer are not read any more. -/
theorem lseek_failed_drops : ¬∀ (f : OpenFile ℕ) (p : ℕ) (offset : ℤ) (whence : Whence), At [1,2,3] id f p →
    (lseek (listOps [1,2,3]) f offset whence).1 = -1 →
    SameReads (listOps [1,2,3]) (lseek (listOps [1,2,3]) f offset whence).2 f := fun h =>
  absurd (h partRead 1 (-5) .set partRead_at (by decide) 2 [1]) (by decide)

end Spec

end Blub.Stand.SeekFault
