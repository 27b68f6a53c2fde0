import Blub.Lib.Slice
import Blub.Stand.NfsReply

/-! Listing directories over NFS: the replies of servers whose directories do not change, and what runs of
`nfs_readdir` return on each handle while its position is shared by all of them. -/
namespace Blub.Stand.NfsListing
open Blub.Bytes Blub.Stand.NfsReply

/-- `NFS_MAXNAMLEN`. -/
def nfsMaxnamlen : ℕ := 255

/-- An entry of a directory, with the cookie by which the server goes on behind it. -/
structure Entry where
  fileid : ℕ
  name : List UInt8
  cookie : ℕ
  pos : 0 < cookie
  lt : cookie < 2^32
  short : name.length ≤ nfsMaxnamlen

/-- A directory in the order of its server. -/
structure Directory where
  entries : List Entry
  nodup : (entries.map Entry.cookie).Nodup

/-- What `nfs_readdir` returns for an entry. -/
def Entry.result (e : Entry) : DirResult := .found e.name.length e.name

def Directory.results (d : Directory) : List DirResult := d.entries.map Entry.result

/-- The entries behind a cookie. -/
def Directory.after (d : Directory) (cookie : ℕ) : List Entry :=
  if cookie = 0 then d.entries else (d.entries.dropWhile fun e => e.cookie ≠ cookie).tail

section Replies

/-- The name and the bytes that fill its last word. -/
def padded (name : List UInt8) : List UInt8 := name ++ List.replicate ((4-name.length%4)%4) 0

/-- The entries of a reply and its end. -/
def listed : List Entry → Bool → List UInt8
  | [], eof => be32 0 ++ be32 (if eof then 1 else 0)
  | e :: es, eof =>
    be32 1 ++ (be32 e.fileid ++ (be32 e.name.length ++ (padded e.name ++ (be32 e.cookie ++ listed es eof))))

/-- A reply with the first `n` entries behind the cookie. -/
def readdirReply (d : Directory) (cookie n : ℕ) (eof : Bool) : List UInt8 := be32 0 ++ listed ((d.after cookie).take n) eof

/-- The server answers with some of the entries behind the cookie, and tells the end only where it is. What it
answers for a cookie that is none of the directory is up to it. -/
def Answers (d : Directory) (cookie : ℕ) (r : Reply nfsReaddirsize) : Prop :=
  cookie = 0 ∨ cookie ∈ d.entries.map Entry.cookie → ∃ n eof, (eof = true → (d.after cookie).drop n = []) ∧
    r.cc = .ok (readdirReply d cookie n eof).length ∧ Holds r.data 0 (readdirReply d cookie n eof)

attribute [local grind =] listed

end Replies

section Runs
variable (w : Abi) (dir : NfsReply.Dirent)

/-- The static variables, the file handles of the handles in the order in which they were opened, those that
were closed, and what `nfs_readdir` returned. -/
structure Listings where
  statics : DirStatics
  handles : List (List UInt8)
  closed : List ℕ
  log : List (ℕ × DirResult)

/-- What is done: a directory is opened, listed for one entry with these replies, or closed. -/
inductive DirOp
  | opendir (fh : List UInt8)
  | readdir (h : ℕ) (rs : List (Reply nfsReaddirsize))
  | close (h : ℕ)

/-- One of them. A call on a handle that is not open is not made, and a call may not return. -/
def step (s : Listings) : DirOp → Option Listings
  | .opendir fh => some {s with handles := s.handles ++ [fh]}
  | .readdir h rs =>
    if h < s.handles.length ∧ h ∉ s.closed then
      (nfsReaddir w dir rs s.statics).map fun c => {s with statics := c.statics, log := s.log ++ [(h,c.result)]}
    else none
  | .close h => some {s with closed := h :: s.closed}

def run : List DirOp → Listings → Option Listings
  | [], s => some s
  | op :: ops, s => (step w dir s op).bind (run ops)

/-- `ok` holds of each of them in the state in which it is done. -/
def Along (ok : Listings → DirOp → Prop) : List DirOp → Listings → Prop
  | [], _ => True
  | op :: ops, s => ok s op ∧ ∀ s', step w dir s op = some s' → Along ok ops s'

/-- The calls of `rpc_call` are answered from the directory of the handle. -/
def Served (dirs : List UInt8 → Directory) (s : Listings) : DirOp → Prop
  | .readdir h rs => ∀ fh, s.handles[h]? = some fh → ∀ r ∈ rs, Answers (dirs fh) s.statics.cookie r
  | _ => True

/-- The handle whose listing was not brought to its end. -/
def owner (log : List (ℕ × DirResult)) : Option ℕ :=
  match log.getLast? with
  | none => none
  | some (_,.enoent) => none
  | some (h,_) => some h

/-- A listing is begun only when the one before it was brought to its end. -/
def InTurn (s : Listings) : DirOp → Prop
  | .readdir h _ => owner s.log = none ∨ owner s.log = some h
  | _ => True

/-- What was returned on a handle. -/
def heard (log : List (ℕ × DirResult)) (h : ℕ) : List DirResult := (log.filter fun x => x.1 = h).map (·.2)

/-- What is returned until `ENOENT` is the directory as far as it goes, and all of it at `ENOENT`. -/
def Lists (d : Directory) (l : List DirResult) : Prop :=
  l.takeWhile (· ≠ .enoent) <+: d.results ∧ (.enoent ∈ l → l.takeWhile (· ≠ .enoent) = d.results)

def start : Listings := ⟨⟨0,0,fun _ => 0,0⟩,[],[],[]⟩

attribute [local grind =] step run Along owner

end Runs

section Cookies
variable {d : Directory}

theorem after_zero : d.after 0 = d.entries := if_pos rfl

/-- Behind the cookie of an entry come the entries behind it. -/
theorem after_cookie {ret rem : List Entry} {e : Entry} (h : d.entries = ret ++ e :: rem) : d.after e.cookie = rem := by
  have hnodup := d.nodup
  rw [h,List.map_append,List.map_cons,List.nodup_append] at hnodup
  have hret : ∀ x ∈ ret, decide (x.cookie ≠ e.cookie) = true := by
    intro x hx
    exact decide_eq_true (hnodup.2.2 _ (List.mem_map_of_mem hx) _ List.mem_cons_self)
  rw [Directory.after,if_neg e.pos.ne',h,List.dropWhile_append_of_pos hret,List.dropWhile_cons_of_neg (by simp),
    List.tail_cons]

end Cookies

section Position
variable {w : Abi} {dir : NfsReply.Dirent} {d : Directory}

/-- `buf` stands in front of these entries of a reply. -/
def Stands (s : DirStatics) (es : List Entry) (eof : Bool) : Prop := Holds s.data (s.buf+4) (listed es eof)

theorem length_padded (name : List UInt8) : (padded name).length = (name.length+3)/4*4 := by
  rw [padded,List.length_append,List.length_replicate]
  omega

theorem advance_short (w : Abi) {n : ℕ} (h : n ≤ nfsMaxnamlen) : advance w n = 8+(n+3)/4*4 := by
  have hbits := bits_le w
  rw [nfsMaxnamlen] at h
  rw [advance,Nat.mod_eq_of_lt (show n+3 < 2^32 by omega),Nat.mod_eq_of_lt (by omega)]

theorem Stands.ends {s : DirStatics} {eof : Bool} (h : Stands s [] eof) :
    s.follows = 0 ∧ s.eof = if eof then 1 else 0 := by
  obtain ⟨hfollows,heof⟩ := holds_append.mp h
  refine ⟨hfollows.be32,?_⟩
  rw [DirStatics.eof,Holds.be32 (o := s.buf+8) heof]
  cases eof <;> rfl

/-- In front of an entry `nfs_readdir` returns it, and stands behind it then. -/
theorem Stands.entry {s : DirStatics} {e : Entry} {es : List Entry} {eof : Bool} (h : Stands s (e :: es) eof)
    (hdir : nfsMaxnamlen < 2^dir.namlenBits) (acc : List Access) :
    s.follows ≠ 0 ∧ (nfsEntry w dir s acc).result = e.result ∧ (nfsEntry w dir s acc).statics.cookie = e.cookie ∧
      Stands (nfsEntry w dir s acc).statics es eof := by
  have hshort := e.short
  obtain ⟨hfollows,h⟩ := holds_append.mp h
  obtain ⟨-,h⟩ := holds_append.mp h
  obtain ⟨hlen,h⟩ := holds_append.mp h
  obtain ⟨hname,h⟩ := holds_append.mp h
  obtain ⟨hcookie,hrest⟩ := holds_append.mp h
  simp only [length_be32,length_padded] at hlen hname hcookie hrest
  obtain ⟨hname,-⟩ := holds_append.mp hname
  have hfollows : s.follows = 1 := hfollows.be32
  have hlen : s.len = e.name.length := by
    rw [DirStatics.len,show s.buf+12 = s.buf+4+4+4 by omega,hlen.be32,Nat.mod_eq_of_lt]
    rw [nfsMaxnamlen] at hshort
    omega
  have hnamlen : s.len%2^dir.namlenBits = e.name.length := by
    rw [hlen,Nat.mod_eq_of_lt (lt_of_le_of_lt hshort hdir)]
  have hnext : s.buf+8+advance w s.len = s.buf+4+4+4+4+(e.name.length+3)/4*4 := by
    rw [hlen,advance_short w hshort]
    omega
  refine ⟨by omega,?_,?_,?_⟩
  · simp only [nfsEntry,hnamlen,Entry.result]
    congr 1
    rw [show s.buf+16 = s.buf+4+4+4+4 by omega]
    exact hname.map_range
  · simp only [nfsEntry]
    rw [hnext,hcookie.be32,Nat.mod_eq_of_lt e.lt]
  · simp only [Stands,nfsEntry]
    rw [hnext]
    exact hrest

end Position

section Calls
variable {w : Abi} {dir : NfsReply.Dirent} {d : Directory}

/-- A listing is under way: these entries were returned, and `buf` and the cookie are behind them. -/
structure UnderWay (d : Directory) (s : DirStatics) (ret : List Entry) : Prop where
  listing : ∃ es more eof, Stands s es eof ∧ d.after s.cookie = es ++ more ∧ (eof = true → more = [])
  cookie : s.cookie ∈ d.entries.map Entry.cookie
  all : d.entries = ret ++ d.after s.cookie

theorem UnderWay.cookie_ne {s : DirStatics} {ret : List Entry} (h : UnderWay d s ret) : s.cookie ≠ 0 := by
  obtain ⟨e,-,he⟩ := List.mem_map.mp h.cookie
  rw [← he]
  exact e.pos.ne'

/-- What a call returns when the entries `ret` were returned before: the next one, or that there is none. -/
def Next (d : Directory) (ret : List Entry) (c : DirCall) : Prop :=
  (c.result = .enoent ∧ c.statics.cookie = 0 ∧ ret = d.entries) ∨
    ∃ e, c.result = e.result ∧ UnderWay d c.statics (ret ++ [e])

/-- A look at `buf`, in front of the entries that are left. -/
theorem nfsLook_next {refill : DirStatics → List Access → Option DirCall} {s : DirStatics} {ret es more : List Entry}
    {eof : Bool} {acc : List Access} {c : DirCall} (hdir : nfsMaxnamlen < 2^dir.namlenBits)
    (hs : Stands s es eof) (hafter : d.after s.cookie = es ++ more) (hall : d.entries = ret ++ d.after s.cookie)
    (heof : eof = true → more = []) (hrefill : ∀ acc, refill s acc = some c → Next d ret c)
    (h : nfsLook w dir refill s acc = some c) : Next d ret c := by
  unfold nfsLook at h
  cases es with
  | nil =>
    obtain ⟨hfollows,hend⟩ := hs.ends
    rw [if_pos hfollows] at h
    cases eof with
    | true =>
      rw [if_pos (by rw [hend]; decide),Option.some.injEq] at h
      subst h
      rw [hafter,heof rfl,List.append_nil,List.append_nil] at hall
      exact .inl ⟨rfl,rfl,hall.symm⟩
    | false =>
      rw [if_neg (by rw [hend]; decide)] at h
      exact hrefill _ h
  | cons e es =>
    obtain ⟨hfollows,hresult,hcookie,hstands⟩ := hs.entry (w := w) hdir (acc ++ span s.got (s.buf+4) 4)
    rw [if_neg hfollows,Option.some.injEq] at h
    subst h
    have hentries : d.entries = ret ++ e :: (es ++ more) := by rw [hall,hafter,List.cons_append]
    have hbehind := after_cookie hentries
    refine .inr ⟨e,hresult,⟨es,more,eof,hstands,?_,heof⟩,?_,?_⟩
    · rw [hcookie,hbehind]
    · rw [hcookie,hentries]
      exact List.mem_map_of_mem (List.mem_append_right _ List.mem_cons_self)
    · rw [hcookie,hbehind,hentries,List.append_assoc]
      rfl

/-- Refilling goes on until a reply has an entry or tells the end. -/
theorem nfsRefill_next {rs : List (Reply nfsReaddirsize)} {s : DirStatics} {ret : List Entry} {acc : List Access}
    {c : DirCall} (hdir : nfsMaxnamlen < 2^dir.namlenBits) (hvalid : s.cookie = 0 ∨ s.cookie ∈ d.entries.map Entry.cookie)
    (hall : d.entries = ret ++ d.after s.cookie) (hrs : ∀ r ∈ rs, Answers d s.cookie r)
    (h : nfsRefill w dir rs s acc = some c) : Next d ret c := by
  induction rs generalizing s acc with
  | nil => cases h
  | cons r rs ih =>
    obtain ⟨n,eof,heof,-,hdata⟩ := hrs r List.mem_cons_self hvalid
    obtain ⟨hstatus,hlisted⟩ := holds_append.mp hdata
    have hok : beWord (s.received r).data 0 = 0 := hstatus.be32
    have hcookie : (s.received r).cookie = s.cookie := rfl
    rw [nfsRefill] at h
    simp only [hok,ne_eq,not_true_eq_false,if_false] at h
    have hsplit : d.after s.cookie = (d.after s.cookie).take n ++ (d.after s.cookie).drop n :=
      (List.take_append_drop n _).symm
    refine nfsLook_next (s := s.received r) hdir hlisted hsplit hall heof (fun acc hr => ?_) h
    · exact ih (s := s.received r) hvalid hall (fun r' hr' => hrs r' (List.mem_cons_of_mem _ hr')) hr

/-- The first call of a listing. -/
theorem nfsReaddir_first {rs : List (Reply nfsReaddirsize)} {s : DirStatics} {c : DirCall}
    (hdir : nfsMaxnamlen < 2^dir.namlenBits) (hs : s.cookie = 0) (hrs : ∀ r ∈ rs, Answers d s.cookie r)
    (h : nfsReaddir w dir rs s = some c) : Next d [] c := by
  rw [nfsReaddir,if_pos hs] at h
  refine nfsRefill_next hdir (.inl hs) ?_ hrs h
  rw [hs,after_zero,List.nil_append]

/-- The calls that follow. -/
theorem nfsReaddir_next {rs : List (Reply nfsReaddirsize)} {s : DirStatics} {ret : List Entry} {c : DirCall}
    (hdir : nfsMaxnamlen < 2^dir.namlenBits) (hs : UnderWay d s ret) (hrs : ∀ r ∈ rs, Answers d s.cookie r)
    (h : nfsReaddir w dir rs s = some c) : Next d ret c := by
  rw [nfsReaddir,if_neg hs.cookie_ne] at h
  obtain ⟨es,more,eof,hstands,hafter,heof⟩ := hs.listing
  exact nfsLook_next hdir hstands hafter hs.all heof
    (fun acc hr => nfsRefill_next hdir (.inr hs.cookie) hs.all hrs hr) h

end Calls

section Logs
variable {d : Directory} {log : List (ℕ × DirResult)} {h h' : ℕ} {r : DirResult}

theorem heard_self : heard (log ++ [(h,r)]) h = heard log h ++ [r] := by simp [heard]

theorem heard_other (hne : h' ≠ h) : heard (log ++ [(h,r)]) h' = heard log h' := by
  simp [heard,Ne.symm hne]

theorem owner_enoent : owner (log ++ [(h,.enoent)]) = none := by
  rw [owner,List.getLast?_concat]

theorem owner_found (hr : r ≠ .enoent) : owner (log ++ [(h,r)]) = some h := by
  rw [owner,List.getLast?_concat]
  cases r with
  | enoent => exact absurd rfl hr
  | eio => rfl
  | found namlen name => rfl

theorem Entry.result_ne (e : Entry) : e.result ≠ .enoent := by simp [Entry.result]

theorem takeWhile_results (ret : List Entry) (l : List DirResult) :
    (ret.map Entry.result ++ l).takeWhile (· ≠ .enoent) = ret.map Entry.result ++ l.takeWhile (· ≠ .enoent) := by
  refine List.takeWhile_append_of_pos fun x hx => ?_
  obtain ⟨e,-,rfl⟩ := List.mem_map.mp hx
  exact decide_eq_true e.result_ne

/-- Names that are the beginning of the directory. -/
theorem lists_names {ret rem : List Entry} (hall : d.entries = ret ++ rem) : Lists d (ret.map Entry.result) := by
  have htake := takeWhile_results ret []
  rw [List.append_nil,List.takeWhile_nil,List.append_nil] at htake
  refine ⟨?_,fun hmem => ?_⟩
  · rw [htake,Directory.results,hall,List.map_append]
    exact List.prefix_append ..
  · obtain ⟨e,-,he⟩ := List.mem_map.mp hmem
    exact absurd he e.result_ne

/-- All names, and `ENOENT`. -/
theorem lists_all : Lists d (d.results ++ [.enoent]) := by
  have htake := takeWhile_results d.entries [.enoent]
  rw [List.takeWhile_cons_of_neg (by simp),List.append_nil] at htake
  rw [Lists,Directory.results,htake]
  exact ⟨List.prefix_rfl,fun _ => rfl⟩

theorem takeWhile_snoc {l : List DirResult} (hend : .enoent ∈ l) :
    (l ++ [r]).takeWhile (· ≠ .enoent) = l.takeWhile (· ≠ .enoent) := by
  induction l with
  | nil => cases hend
  | cons x l ih =>
    rw [List.cons_append]
    by_cases hx : x = .enoent
    · rw [List.takeWhile_cons_of_neg (by simp [hx]),List.takeWhile_cons_of_neg (by simp [hx])]
    · have hmem := (List.mem_cons.mp hend).resolve_left (Ne.symm hx)
      rw [List.takeWhile_cons_of_pos (by simp [hx]),List.takeWhile_cons_of_pos (by simp [hx]),ih hmem]

/-- What is returned behind `ENOENT` does not matter. -/
theorem Lists.snoc {l : List DirResult} (hl : Lists d l) (hend : .enoent ∈ l) : Lists d (l ++ [r]) := by
  rw [Lists,takeWhile_snoc hend]
  exact ⟨hl.1,fun _ => hl.2 hend⟩

end Logs

section Invariant
variable {w : Abi} {dir : NfsReply.Dirent} {dirs : List UInt8 → Directory}

/-- Every handle lists its directory, and the position is that of the handle whose listing is under way, if one
is. All other listings were not begun or were brought to their ends. -/
structure Inv (dirs : List UInt8 → Directory) (s : Listings) : Prop where
  known : ∀ x ∈ s.log, x.1 < s.handles.length
  lists : ∀ h fh, s.handles[h]? = some fh → Lists (dirs fh) (heard s.log h)
  idle : owner s.log = none → s.statics.cookie = 0
  rested : ∀ h, owner s.log ≠ some h → heard s.log h = [] ∨ .enoent ∈ heard s.log h
  busy : ∀ h, owner s.log = some h → ∃ fh ret, s.handles[h]? = some fh ∧ UnderWay (dirs fh) s.statics ret ∧
    (.enoent ∉ heard s.log h → heard s.log h = ret.map Entry.result)

theorem heard_unknown {s : Listings} (hs : Inv dirs s) {h : ℕ} (hh : s.handles.length ≤ h) : heard s.log h = [] := by
  rw [heard,List.map_eq_nil_iff,List.filter_eq_nil_iff]
  intro x hx
  have hlt := hs.known x hx
  simp only [decide_eq_true_eq]
  omega

theorem inv_start : Inv dirs start where
  known := by simp [start]
  lists := by simp [start]
  idle := fun _ => rfl
  rested := fun _ _ => .inl rfl
  busy := fun h hh => absurd hh (by simp [start,owner])

theorem Inv.opendir {s : Listings} (hs : Inv dirs s) (fh : List UInt8) : Inv dirs {s with handles := s.handles ++ [fh]} where
  known := fun x hx => by
    have hlt := hs.known x hx
    rw [List.length_append]
    omega
  lists := by
    intro h fh' hget
    by_cases hlt : h < s.handles.length
    · rw [List.getElem?_append_left hlt] at hget
      exact hs.lists h fh' hget
    · rw [heard_unknown hs (by omega)]
      exact @lists_names _ [] _ rfl
  idle := hs.idle
  rested := hs.rested
  busy := by
    intro h hown
    obtain ⟨fh',ret,hget,hrest⟩ := hs.busy h hown
    have hlt := (List.getElem?_eq_some_iff.mp hget).1
    exact ⟨fh',ret,(List.getElem?_append_left hlt).trans hget,hrest⟩

/-- What a call has to start from. -/
theorem Inv.next {s : Listings} (hs : Inv dirs s) {h : ℕ} {fh : List UInt8} {rs : List (Reply nfsReaddirsize)}
    {c : DirCall} (hdir : nfsMaxnamlen < 2^dir.namlenBits) (hget : s.handles[h]? = some fh)
    (hturn : owner s.log = none ∨ owner s.log = some h) (hrs : ∀ r ∈ rs, Answers (dirs fh) s.statics.cookie r)
    (hc : nfsReaddir w dir rs s.statics = some c) :
    ∃ ret, Next (dirs fh) ret c ∧ (.enoent ∉ heard s.log h → heard s.log h = ret.map Entry.result) := by
  obtain hnone | hown := hturn
  · refine ⟨[],nfsReaddir_first hdir (hs.idle hnone) hrs hc,fun hend => ?_⟩
    exact (hs.rested h (by rw [hnone]; simp)).resolve_right hend
  · obtain ⟨fh',ret,hget',hway,hheard⟩ := hs.busy h hown
    rw [hget,Option.some.injEq] at hget'
    subst hget'
    exact ⟨ret,nfsReaddir_next hdir hway hrs hc,hheard⟩

theorem Inv.readdir {s : Listings} (hs : Inv dirs s) {h : ℕ} {fh : List UInt8} {rs : List (Reply nfsReaddirsize)}
    {c : DirCall} (hdir : nfsMaxnamlen < 2^dir.namlenBits) (hget : s.handles[h]? = some fh)
    (hturn : owner s.log = none ∨ owner s.log = some h) (hrs : ∀ r ∈ rs, Answers (dirs fh) s.statics.cookie r)
    (hc : nfsReaddir w dir rs s.statics = some c) :
    Inv dirs {s with statics := c.statics, log := s.log ++ [(h,c.result)]} := by
  obtain ⟨ret,hnext,hheard⟩ := hs.next hdir hget hturn hrs hc
  have hlt : h < s.handles.length := (List.getElem?_eq_some_iff.mp hget).1
  have hlist : Lists (dirs fh) (heard s.log h ++ [c.result]) := by
    by_cases hend : .enoent ∈ heard s.log h
    · exact (hs.lists h fh hget).snoc hend
    · rw [hheard hend]
      obtain ⟨hres,-,hret⟩ | ⟨e,hres,hway⟩ := hnext
      · rw [hres,hret]
        exact lists_all
      · rw [hres]
        have hnames := lists_names hway.all
        rwa [List.map_append] at hnames
  have hrested : ∀ h', h' ≠ h → heard s.log h' = [] ∨ .enoent ∈ heard s.log h' := by
    intro h' hne
    refine hs.rested h' fun hown => hne ?_
    obtain hnone | hself := hturn
    · rw [hnone] at hown
      cases hown
    · rw [hself,Option.some.injEq] at hown
      exact hown.symm
  constructor
  · intro x hx
    obtain hx | hx := List.mem_append.mp hx
    · exact hs.known x hx
    · rw [List.mem_singleton.mp hx]
      exact hlt
  · intro h' fh' hget'
    by_cases hne : h' = h
    · subst hne
      rw [hget,Option.some.injEq] at hget'
      subst hget'
      rw [heard_self]
      exact hlist
    · rw [heard_other hne]
      exact hs.lists h' fh' hget'
  · intro hnone
    obtain ⟨-,hcookie,-⟩ | ⟨e,hres,-⟩ := hnext
    · exact hcookie
    · rw [owner_found (hres ▸ e.result_ne)] at hnone
      cases hnone
  · intro h' hown
    by_cases hne : h' = h
    · subst hne
      rw [heard_self]
      by_cases hres : c.result = .enoent
      · exact .inr (by rw [hres]; simp)
      · exact absurd (owner_found hres) hown
    · rw [heard_other hne]
      exact hrested h' hne
  · intro h' hown
    obtain ⟨hres,-,-⟩ | ⟨e,hres,hway⟩ := hnext
    · simp only [hres,owner_enoent,reduceCtorEq] at hown
    · simp only [owner_found (hres ▸ e.result_ne),Option.some.injEq] at hown
      subst hown
      refine ⟨fh,ret ++ [e],hget,hway,fun hend => ?_⟩
      rw [heard_self] at hend ⊢
      rw [hheard fun hin => hend (List.mem_append_left _ hin),hres,List.map_append]
      rfl

theorem Inv.step {s s' : Listings} {op : DirOp} (hs : Inv dirs s) (hdir : nfsMaxnamlen < 2^dir.namlenBits)
    (hserved : Served dirs s op) (hturn : InTurn s op) (h : step w dir s op = some s') : Inv dirs s' := by
  cases op with
  | opendir fh =>
    rw [NfsListing.step,Option.some.injEq] at h
    exact h ▸ hs.opendir fh
  | readdir k rs =>
    rw [NfsListing.step] at h
    split_ifs at h with hopen
    obtain ⟨c,hc,rfl⟩ := Option.map_eq_some_iff.mp h
    have hget : s.handles[k]? = some s.handles[k] := List.getElem?_eq_getElem hopen.1
    exact hs.readdir hdir hget hturn (hserved _ hget) hc
  | close k =>
    rw [NfsListing.step,Option.some.injEq] at h
    subst h
    exact ⟨hs.known,hs.lists,hs.idle,hs.rested,hs.busy⟩

theorem Inv.run {ops : List DirOp} {s s' : Listings} (hs : Inv dirs s) (hdir : nfsMaxnamlen < 2^dir.namlenBits)
    (hops : Along w dir (fun s op => Served dirs s op ∧ InTurn s op) ops s) (h : run w dir ops s = some s') :
    Inv dirs s' := by
  induction ops generalizing s with
  | nil =>
    rw [NfsListing.run,Option.some.injEq] at h
    exact h ▸ hs
  | cons op ops ih =>
    obtain ⟨s₁,h₁,hrest⟩ := Option.bind_eq_some_iff.mp h
    exact ih (hs.step hdir hops.1.1 hops.1.2 h₁) (hops.2 s₁ h₁) hrest

/-- In every run in which a listing is begun only when the one before it was brought to its end, every handle
has returned its own directory, in order, each entry once, and all of it at `ENOENT`. -/
theorem nfsReaddir_lists (w : Abi) (dir : NfsReply.Dirent) (dirs : List UInt8 → Directory) (ops : List DirOp) (s : Listings)
    (hdir : nfsMaxnamlen < 2^dir.namlenBits)
    (hops : Along w dir (fun s op => Served dirs s op ∧ InTurn s op) ops start) (h : run w dir ops start = some s) :
    ∀ k fh, s.handles[k]? = some fh → Lists (dirs fh) (heard s.log k) :=
  (inv_start.run hdir hops h).lists

end Invariant

section Samples

/-- A directory with the names `a` and `b`, and one with the name `c`. -/
def sampleDirs (fh : List UInt8) : Directory :=
  if fh = [1] then ⟨[⟨1,[97],1,Nat.one_pos,by decide,by decide⟩,⟨2,[98],2,Nat.two_pos,by decide,by decide⟩],by decide⟩
  else ⟨[⟨3,[99],1,Nat.one_pos,by decide,by decide⟩],by decide⟩

def sampleReply (fh : List UInt8) (h : (readdirReply (sampleDirs fh) 0 2 true).length ≤ nfsReaddirsize) :
    Reply nfsReaddirsize where
  cc := .ok (readdirReply (sampleDirs fh) 0 2 true).length
  data := ofList (readdirReply (sampleDirs fh) 0 2 true)
  accepted := by
    intro n hn
    injection hn with hn
    subst hn
    exact ⟨by simp [readdirReply],h⟩

theorem sampleReply_answers {fh : List UInt8} (h : (readdirReply (sampleDirs fh) 0 2 true).length ≤ nfsReaddirsize)
    (hall : ((sampleDirs fh).after 0).drop 2 = []) : Answers (sampleDirs fh) 0 (sampleReply fh h) :=
  fun _ => ⟨2,true,fun _ => hall,rfl,holds_of_ofList fun j _ => by rw [Nat.zero_add]; rfl⟩

/-- A listing of one entry and its end. -/
def wholeListing : List DirOp := [.opendir [2],.readdir 0 [sampleReply [2] (by decide)],.readdir 0 []]

theorem wholeListing_along :
    Along .lp64 ⟨16,256⟩ (fun s op => Served sampleDirs s op ∧ InTurn s op) wholeListing start := by
  refine ⟨⟨trivial,trivial⟩,fun s₁ h₁ => ⟨⟨?_,.inl ?_⟩,fun s₂ h₂ => ⟨⟨?_,.inr ?_⟩,fun _ _ => trivial⟩⟩⟩
  · obtain rfl := Option.some.inj h₁
    intro fh hfh r hr
    obtain rfl := Option.some.inj hfh
    rw [List.mem_singleton.mp hr]
    exact sampleReply_answers (by decide) (by decide)
  · obtain rfl := Option.some.inj h₁
    rfl
  · exact fun _ _ r hr => absurd hr (by simp)
  · obtain rfl := Option.some.inj h₁
    obtain rfl := Option.some.inj h₂
    decide

theorem nfsReaddir_lists_whole : ∃ s, run .lp64 ⟨16,256⟩ wholeListing start = some s ∧
    s.log = [(0,.found 1 [99]),(0,.enoent)] ∧ Lists (sampleDirs [2]) (heard s.log 0) := by
  have hrun : (run .lp64 ⟨16,256⟩ wholeListing start).map (fun s => (s.handles,s.log)) =
      some ([[2]],[(0,.found 1 [99]),(0,.enoent)]) := by decide
  obtain ⟨s,hs,hlog⟩ := Option.map_eq_some_iff.mp hrun
  rw [Prod.mk.injEq] at hlog
  refine ⟨s,hs,hlog.2,?_⟩
  exact nfsReaddir_lists .lp64 ⟨16,256⟩ sampleDirs wholeListing s (by decide) wholeListing_along hs 0 [2]
    (by rw [hlog.1]; rfl)

/-- A second directory is listed before the first one was listed to its end. -/
def mixedListing : List DirOp :=
  [.opendir [1],.opendir [2],.readdir 0 [sampleReply [1] (by decide)],.readdir 1 []]

theorem mixedListing_log : (run .lp64 ⟨16,256⟩ mixedListing start).map (fun s => (s.handles,s.log)) =
    some ([[1],[2]],[(0,.found 1 [97]),(1,.found 1 [98])]) := by decide

theorem mixedListing_served : Along .lp64 ⟨16,256⟩ (Served sampleDirs) mixedListing start := by
  refine ⟨trivial,fun s₁ h₁ => ⟨trivial,fun s₂ h₂ => ⟨?_,fun s₃ _ => ⟨?_,fun _ _ => trivial⟩⟩⟩⟩
  · obtain rfl := Option.some.inj h₁
    obtain rfl := Option.some.inj h₂
    intro fh hfh r hr
    obtain rfl := Option.some.inj hfh
    rw [List.mem_singleton.mp hr]
    exact sampleReply_answers (by decide) (by decide)
  · exact fun _ _ r hr => absurd hr (by simp)

theorem nfsReaddir_lists_fails : ¬ ∀ (w : Abi) (dir : NfsReply.Dirent) (dirs : List UInt8 → Directory) (ops : List DirOp)
    (s : Listings), nfsMaxnamlen < 2^dir.namlenBits → Along w dir (Served dirs) ops start → run w dir ops start = some s →
    ∀ k fh, s.handles[k]? = some fh → Lists (dirs fh) (heard s.log k) := by
  intro h
  obtain ⟨s,hs,hlog⟩ := Option.map_eq_some_iff.mp mixedListing_log
  rw [Prod.mk.injEq] at hlog
  have hlists := h .lp64 ⟨16,256⟩ sampleDirs mixedListing s (by decide) mixedListing_served hs 1 [2] (by rw [hlog.1]; rfl)
  rw [hlog.2] at hlists
  exact absurd hlists.1 (by decide)

end Samples

end Blub.Stand.NfsListing
