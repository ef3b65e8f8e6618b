import ProofBook.Lib.Json
import ProofBook.Lib.JsText
import ProofBook.Lib.Runs

/-!
# The RPC proxy

A POST is counted for its IP before its body is read; the body may come at any later
time. It is one call or a batch of them, and it is forwarded as a whole if each call is
allowed. The limiter counts requests, not calls. The clock does not go back.
-/
namespace ProofBook.RpcProxy
open Json JsText Runs

/-! ## One body -/

def programId : String := "4kyf719yvcKf3qHKyLAQHbBEgLogrbJtC2nFZMMd7v63"

def allowed : List String :=
  ["getProgramAccounts", "getLatestBlockhash", "getBlockHeight", "getSlot", "getVersion",
    "getHealth", "getEpochInfo", "getGenesisHash", "getBalance", "getAccountInfo",
    "getMultipleAccounts", "getTokenAccountBalance", "getTokenAccountsByOwner",
    "getMinimumBalanceForRentExemption", "getFeeForMessage", "getRecentPrioritizationFees",
    "simulateTransaction", "sendTransaction", "getSignatureStatuses", "getTransaction"]

def maxBody : ℕ := 200000

def isText (v : Option Value) (text : String) : Bool :=
  match v with
  | some (.string s) => s == utf16 text.toList
  | _ => false

/-- Only the program of the site, and only with a filter. -/
def programAccountsAllowed (params : Option Value) : Bool :=
  match params with
  | some (.array (program :: rest)) =>
      isText (some program) programId &&
        match rest.head?.bind (·.get "filters") with
        | some (.array filters) => !filters.isEmpty
        | _ => false
  | _ => false

inductive Refusal
  | rateLimited
  | payloadTooLarge
  | invalidJson
  | methodNotAllowed
  | programAccounts
deriving DecidableEq

def Refusal.status : Refusal → ℕ
  | .rateLimited => 429
  | .payloadTooLarge => 413
  | .invalidJson => 400
  | .methodNotAllowed | .programAccounts => 403

def checkCall (c : Value) : Option Refusal :=
  let method := c.get "method"
  if ¬ allowed.any (isText method) then some .methodNotAllowed
  else if isText method "getProgramAccounts" ∧ ¬ programAccountsAllowed (c.get "params") then
    some .programAccounts
  else none

/-- The calls of a body. -/
def callsOf (body : Value) : List Value :=
  match body with
  | .array calls => calls
  | call => [call]

/-- The calls that are forwarded, or the first reason not to. -/
def checkBody (raw : List Char) : Except Refusal (List Value) :=
  if maxBody < (utf16 raw).length then .error .payloadTooLarge
  else
    match parse raw with
    | none => .error .invalidJson
    | some body =>
        match (callsOf body).findSome? checkCall with
        | some e => .error e
        | none => .ok (callsOf body)

/-! ## The limiter -/

def windowMs : ℤ := 60000

structure Hit where
  n : ℕ
  resetAt : ℤ
deriving DecidableEq

abbrev Ip := List Char

def clientIp (forwardedFor realIp : Option (List Char)) : Ip :=
  match forwardedFor with
  | some v => trim (v.takeWhile (· ≠ ','))
  | none => realIp.getD "unknown".toList

/-- A window of an IP: the minute that ends at `resetAt`. -/
structure Window where
  ip : Ip
  resetAt : ℤ
deriving DecidableEq

/-- A body sent upstream. -/
structure Forward where
  /-- The window its request was counted in. -/
  window : Window
  time : ℤ
  raw : List Char
deriving DecidableEq

structure State where
  hits : Ip → Option Hit
  now : ℤ
  /-- The windows the limiter has opened, the newest first. -/
  opened : List Window
  /-- The requests whose body is awaited. -/
  reading : List Window
  forwarded : List Forward

def State.start : State := ⟨fun _ => none, 0, [], [], []⟩

inductive Op
  | elapses (ms : ℕ)
  | post (forwardedFor realIp : Option (List Char))
  /-- The body of a request arrives. -/
  | body (i : ℕ) (raw : List Char)
  /-- The body of a request cannot be read. -/
  | aborts (i : ℕ)
  /-- Windows that are over are removed. -/
  | sweep

namespace State
variable (s : State) (ip : Ip)

/-- A new window, with its first request. -/
def opens : State :=
  { s with
    hits := Function.update s.hits ip (some ⟨1, s.now + windowMs⟩)
    opened := ⟨ip, s.now + windowMs⟩ :: s.opened }

def counts (cur : Hit) : State :=
  { s with hits := Function.update s.hits ip (some { cur with n := cur.n + 1 }) }

/-- The request that was just counted waits for its body. -/
def admits : State :=
  { s with reading := s.reading ++ (s.hits ip).toList.map fun cur => ⟨ip, cur.resetAt⟩ }

end State

section
variable (maxReq : ℕ)

/-- Whether the request is over the limit. -/
def limited (s : State) (ip : Ip) : Bool × State :=
  match s.hits ip with
  | none => (false, s.opens ip)
  | some cur =>
      if cur.resetAt < s.now then (false, s.opens ip)
      else (decide (maxReq < cur.n + 1), s.counts ip cur)

def next (s : State) : Op → State
  | .elapses ms => { s with now := s.now + ms }
  | .post forwardedFor realIp =>
      let ip := clientIp forwardedFor realIp
      let (refused, s) := limited maxReq s ip
      if refused then s else s.admits ip
  | .body i raw =>
      match s.reading[i]? with
      | some w =>
          let s := { s with reading := s.reading.eraseIdx i }
          match checkBody raw with
          | .ok _ => { s with forwarded := s.forwarded ++ [⟨w, s.now, raw⟩] }
          | .error _ => s
      | none => s
  | .aborts i => { s with reading := s.reading.eraseIdx i }
  | .sweep => { s with hits := fun ip => (s.hits ip).filter fun cur => ¬ cur.resetAt < s.now }

def machine : Machine State Op Empty := ⟨fun s op => .ok (next maxReq s op)⟩

end

/-- The calls of a body that was sent. -/
def Forward.calls (f : Forward) : ℕ :=
  ((parse f.raw).map fun body => (callsOf body).length).getD 0

/-- The calls that an IP has sent upstream during a window. -/
def State.callsWithin (s : State) (w : Window) : ℕ :=
  ((s.forwarded.filter fun f =>
    f.window.ip = w.ip ∧ w.resetAt - windowMs ≤ f.time ∧ f.time ≤ w.resetAt).map
      Forward.calls).sum

/-- A body that is forwarded is no batch and arrives in the window of its request. -/
def InTime (s : State) : Op → Prop
  | .body i raw => ∀ w ∈ s.reading[i]?, ∀ calls ∈ (checkBody raw).toOption,
      s.now ≤ w.resetAt ∧ calls.length ≤ 1
  | _ => True

instance (s : State) (op : Op) : Decidable (InTime s op) := by
  unfold InTime
  split <;> infer_instance

/-! ## What is forwarded -/

/-- What a forwarded call is. -/
structure CallAllowed (c : Value) : Prop where
  method : ∃ m ∈ allowed, c.get "method" = some (.string (utf16 m.toList))
  programAccounts : c.get "method" = some (.string (utf16 "getProgramAccounts".toList)) →
    ∃ options rest filter filters,
      c.get "params" = some (.array (.string (utf16 programId.toList) :: options :: rest)) ∧
        options.get "filters" = some (.array (filter :: filters))

/-- The bodies of a window that were forwarded. -/
def State.bodies (s : State) (w : Window) : ℕ := s.forwarded.countP (·.window = w)

theorem isText_iff {v : Option Value} {text : String} :
    isText v text = true ↔ v = some (.string (utf16 text.toList)) := by
  unfold isText
  split
  · simp
  next h =>
    refine iff_of_false Bool.false_ne_true fun hv => ?_
    exact h _ hv

theorem programAccountsAllowed_params {params : Option Value}
    (h : programAccountsAllowed params = true) : ∃ options rest filter filters,
      params = some (.array (.string (utf16 programId.toList) :: options :: rest)) ∧
        options.get "filters" = some (.array (filter :: filters)) := by
  unfold programAccountsAllowed at h
  split at h
  next program rest =>
    rw [Bool.and_eq_true, isText_iff, Option.some.injEq] at h
    obtain ⟨rfl, h⟩ := h
    cases rest with
    | nil => cases h
    | cons options rest =>
        rw [List.head?_cons, Option.bind_some] at h
        split at h
        next filters hfilters =>
          cases filters with
          | nil => cases h
          | cons filter filters => exact ⟨options, rest, filter, filters, rfl, hfilters⟩
        · cases h
  · cases h

theorem checkCall_none {c : Value} (h : checkCall c = none) : CallAllowed c := by
  unfold checkCall at h
  dsimp only at h
  split_ifs at h with hmethod hprogram
  constructor
  · obtain ⟨m, hm, htext⟩ := List.any_eq_true.mp hmethod
    exact ⟨m, hm, isText_iff.mp htext⟩
  · intro hget
    apply programAccountsAllowed_params
    by_contra hparams
    exact hprogram ⟨isText_iff.mpr hget, hparams⟩

/-- What reaches upstream is read as calls that are allowed. -/
def Screened (raw : List Char) : Prop :=
  (utf16 raw).length ≤ maxBody ∧
    ∃ body, parse raw = some body ∧ ∀ c ∈ callsOf body, CallAllowed c

theorem checkBody_ok {raw : List Char} {calls : List Value} (h : checkBody raw = .ok calls) :
    Screened raw := by
  unfold checkBody at h
  split_ifs at h with hlen
  split at h
  · cases h
  next body hbody =>
    split at h
    · cases h
    next hcalls =>
      refine ⟨not_lt.mp hlen, body, hbody, fun c hc => checkCall_none ?_⟩
      exact List.findSome?_eq_none_iff.mp hcalls c hc

/-! ## One step -/

/-- The requests of a window that were let through. -/
def State.admitted (s : State) (w : Window) : ℕ := s.reading.count w + s.bodies w

/-- The windows share no moment, if they are of one IP. -/
def Apart (w v : Window) : Prop :=
  w.ip = v.ip → w.resetAt < v.resetAt - windowMs ∨ v.resetAt < w.resetAt - windowMs

instance : Std.Symm Apart := ⟨fun _ _ h hip => (h hip.symm).symm⟩

structure Ok (maxReq : ℕ) (s : State) : Prop where
  quota : ∀ w, s.admitted w ≤ max 1 maxReq
  current : ∀ ip cur, s.hits ip = some cur →
    ⟨ip, cur.resetAt⟩ ∈ s.opened ∧ s.admitted ⟨ip, cur.resetAt⟩ ≤ cur.n
  known : ∀ w, w ∉ s.opened → s.admitted w = 0
  past : ∀ w ∈ s.opened, w.resetAt < s.now ∨
    ∃ cur, s.hits w.ip = some cur ∧ cur.resetAt = w.resetAt
  begun : ∀ w ∈ s.opened, w.resetAt - windowMs ≤ s.now
  apart : s.opened.Pairwise Apart
  screened : ∀ f ∈ s.forwarded, Screened f.raw

variable {maxReq : ℕ} {s t : State}

/-- The windows stay, and no request is let through. -/
theorem Ok.mono (h : Ok maxReq s) (hopened : t.opened = s.opened) (hnow : s.now ≤ t.now)
    (hhits : ∀ ip cur, t.hits ip = some cur →
      ∃ before, s.hits ip = some before ∧ before.resetAt = cur.resetAt ∧ before.n ≤ cur.n)
    (hkept : ∀ ip cur, s.hits ip = some cur → cur.resetAt < t.now ∨
      ∃ after, t.hits ip = some after ∧ after.resetAt = cur.resetAt)
    (hadmitted : ∀ w, t.admitted w ≤ s.admitted w)
    (hscreened : ∀ f ∈ t.forwarded, Screened f.raw) : Ok maxReq t where
  quota w := (hadmitted w).trans (h.quota w)
  current ip cur hcur := by
    obtain ⟨before, hbefore, hreset, hle⟩ := hhits ip cur hcur
    obtain ⟨hmem, hn⟩ := h.current ip before hbefore
    rw [hreset] at hmem hn
    exact ⟨hopened ▸ hmem, ((hadmitted _).trans hn).trans hle⟩
  known w hw := by
    rw [hopened] at hw
    exact Nat.le_zero.mp ((hadmitted w).trans (h.known w hw).le)
  past w hw := by
    rw [hopened] at hw
    rcases h.past w hw with hpast | ⟨cur, hcur, hreset⟩
    · exact .inl (hpast.trans_le hnow)
    · rw [← hreset]
      exact hkept w.ip cur hcur
  begun w hw := by
    rw [hopened] at hw
    exact (h.begun w hw).trans hnow
  apart := hopened ▸ h.apart
  screened := hscreened

theorem count_eraseIdx {l : List Window} {i : ℕ} {w : Window} (hw : l[i]? = some w) (w' : Window) :
    l.count w' = (l.eraseIdx i).count w' + if w = w' then 1 else 0 := by
  obtain ⟨hi, hget⟩ := List.getElem?_eq_some_iff.mp hw
  have hperm := List.getElem_cons_eraseIdx_perm hi
  rw [hget] at hperm
  rw [← hperm.count_eq w', List.count_cons]
  simp

theorem limited_cases (s : State) (ip : Ip) :
    (∀ cur, s.hits ip = some cur → cur.resetAt < s.now) ∧
        limited maxReq s ip = (false, s.opens ip) ∨
      ∃ cur, s.hits ip = some cur ∧
        limited maxReq s ip = (decide (maxReq < cur.n + 1), s.counts ip cur) := by
  unfold limited
  split
  next hnone => exact .inl ⟨by simp [hnone], rfl⟩
  next cur hcur =>
    split_ifs with hover
    · refine .inl ⟨fun cur' hcur' => ?_, rfl⟩
      rw [hcur] at hcur'
      cases hcur'
      exact hover
    · exact .inr ⟨cur, hcur, rfl⟩

section
variable (s : State) (ip : Ip) (cur : Hit)

@[simp] theorem hits_opens : (s.opens ip).hits ip = some ⟨1, s.now + windowMs⟩ :=
  Function.update_self _ _ _

@[simp] theorem hits_counts : (s.counts ip cur).hits ip = some { cur with n := cur.n + 1 } :=
  Function.update_self _ _ _

variable {ip} {ip' : Ip}

theorem hits_opens_other (h : ip' ≠ ip) : (s.opens ip).hits ip' = s.hits ip' :=
  Function.update_of_ne h _ _

theorem hits_counts_other (h : ip' ≠ ip) : (s.counts ip cur).hits ip' = s.hits ip' :=
  Function.update_of_ne h _ _

variable {s} {cur : Hit} {w : Window}

theorem admitted_admits (hcur : s.hits ip = some cur) :
    (s.admits ip).admitted w = s.admitted w + if w = ⟨ip, cur.resetAt⟩ then 1 else 0 := by
  simp only [State.admits, State.admitted, State.bodies, hcur, Option.toList_some, List.map_cons,
    List.map_nil, List.count_append, List.count_singleton, beq_iff_eq, eq_comm (a := w)]
  omega

end

/-- One more request in the window that an IP has in `hits`, and counted there. -/
theorem Ok.admits (h : Ok maxReq s) {ip : Ip} {cur : Hit} (hcur : s.hits ip = some cur)
    (hn : s.admitted ⟨ip, cur.resetAt⟩ + 1 ≤ cur.n)
    (hquota : s.admitted ⟨ip, cur.resetAt⟩ + 1 ≤ max 1 maxReq) : Ok maxReq (s.admits ip) where
  quota w := by
    rw [admitted_admits hcur]
    split
    next hw => exact hw ▸ hquota
    · exact h.quota w
  current ip' cur' hcur' := by
    change s.hits ip' = some cur' at hcur'
    refine ⟨(h.current ip' cur' hcur').1, ?_⟩
    rw [admitted_admits hcur]
    split
    next hw =>
      obtain ⟨rfl, -⟩ := Window.mk.inj hw
      rw [hcur] at hcur'
      cases hcur'
      exact hn
    · exact (h.current ip' cur' hcur').2
  known w hw := by
    rw [admitted_admits hcur, if_neg, h.known w hw]
    rintro rfl
    exact hw (h.current ip cur hcur).1
  past := h.past
  begun := h.begun
  apart := h.apart
  screened := h.screened

/-- A window opens when the one before is over, with one request. -/
theorem Ok.opens (h : Ok maxReq s) {ip : Ip}
    (hover : ∀ cur, s.hits ip = some cur → cur.resetAt < s.now) :
    Ok maxReq ((s.opens ip).admits ip) := by
  have hpast : ∀ w ∈ s.opened, w.ip = ip → w.resetAt < s.now := by
    rintro w hw rfl
    rcases h.past w hw with hlt | ⟨cur, hcur, hreset⟩
    · exact hlt
    · exact hreset ▸ hover cur hcur
  have hnew : s.admitted ⟨ip, s.now + windowMs⟩ = 0 := by
    refine h.known _ fun hmem => ?_
    have hlt := hpast _ hmem rfl
    simp only [windowMs] at hlt
    omega
  have hopens : Ok maxReq (s.opens ip) := by
    refine ⟨h.quota, fun ip' cur' hcur' => ?_, fun w hw => ?_, fun w hw => ?_, fun w hw => ?_,
      List.pairwise_cons.mpr ⟨fun w hw hip => ?_, h.apart⟩, h.screened⟩
    · by_cases hip : ip' = ip
      · subst hip
        rw [hits_opens] at hcur'
        cases hcur'
        exact ⟨List.mem_cons_self, hnew.le.trans (Nat.zero_le _)⟩
      · rw [hits_opens_other s hip] at hcur'
        obtain ⟨hmem, hn⟩ := h.current ip' cur' hcur'
        exact ⟨List.mem_cons_of_mem _ hmem, hn⟩
    · exact h.known w fun hmem => hw (List.mem_cons_of_mem _ hmem)
    · rcases List.mem_cons.mp hw with rfl | hw
      · exact .inr ⟨_, hits_opens s ip, rfl⟩
      · by_cases hip : w.ip = ip
        · exact .inl (hpast w hw hip)
        · rw [hits_opens_other s hip]
          exact h.past w hw
    · rcases List.mem_cons.mp hw with rfl | hw
      · exact (Int.add_sub_cancel _ _).le
      · exact h.begun w hw
    · rw [Int.add_sub_cancel]
      exact .inr (hpast w hw hip.symm)
  have hadmitted : (s.opens ip).admitted ⟨ip, s.now + windowMs⟩ + 1 = 1 := congrArg (· + 1) hnew
  exact hopens.admits (hits_opens s ip) hadmitted.le (hadmitted.le.trans (le_max_left _ _))

theorem Ok.counted (h : Ok maxReq s) {ip : Ip} {cur : Hit} (hcur : s.hits ip = some cur) :
    Ok maxReq (s.counts ip cur) := by
  refine h.mono rfl le_rfl (fun ip' cur' hcur' => ?_) (fun ip' cur' hcur' => ?_) (fun w => le_rfl)
    h.screened
  · by_cases hip : ip' = ip
    · subst hip
      rw [hits_counts] at hcur'
      cases hcur'
      exact ⟨cur, hcur, rfl, Nat.le_succ _⟩
    · rw [hits_counts_other s cur hip] at hcur'
      exact ⟨cur', hcur', rfl, le_rfl⟩
  · by_cases hip : ip' = ip
    · subst hip
      rw [hcur] at hcur'
      cases hcur'
      exact .inr ⟨_, hits_counts s ip' cur, rfl⟩
    · exact .inr ⟨cur', by rwa [hits_counts_other s cur hip], rfl⟩

/-- A request within the limit. -/
theorem Ok.counts (h : Ok maxReq s) {ip : Ip} {cur : Hit} (hcur : s.hits ip = some cur)
    (hn : cur.n + 1 ≤ maxReq) : Ok maxReq ((s.counts ip cur).admits ip) := by
  have hcurrent := Nat.succ_le_succ (h.current ip cur hcur).2
  exact (h.counted hcur).admits (hits_counts s ip cur) hcurrent
    (hcurrent.trans (hn.trans (le_max_right _ _)))

/-- The body of a request is through: forwarded, refused or not read. -/
theorem Ok.ends (h : Ok maxReq s) {forwarded : List Forward} (i : ℕ)
    (hadmitted : ∀ w, State.admitted { s with reading := s.reading.eraseIdx i, forwarded } w ≤
      s.admitted w) (hscreened : ∀ f ∈ forwarded, Screened f.raw) :
    Ok maxReq { s with reading := s.reading.eraseIdx i, forwarded } :=
  h.mono rfl le_rfl (fun _ cur hcur => ⟨cur, hcur, rfl, le_rfl⟩)
    (fun _ cur hcur => .inr ⟨cur, hcur, rfl⟩) hadmitted hscreened

theorem Ok.unread (h : Ok maxReq s) (i : ℕ) :
    Ok maxReq { s with reading := s.reading.eraseIdx i } :=
  h.ends i (fun w => Nat.add_le_add_right ((List.eraseIdx_sublist _ _).count_le w) _) h.screened

theorem Ok.next (h : Ok maxReq s) (op : Op) : Ok maxReq (next maxReq s op) := by
  cases op with
  | elapses ms =>
      exact h.mono rfl (Int.le_add_of_nonneg_right (Int.natCast_nonneg ms))
        (fun _ cur hcur => ⟨cur, hcur, rfl, le_rfl⟩) (fun _ cur hcur => .inr ⟨cur, hcur, rfl⟩)
        (fun w => le_rfl) h.screened
  | post forwardedFor realIp =>
      rw [RpcProxy.next]
      rcases limited_cases s (clientIp forwardedFor realIp) with
        ⟨hover, hopen⟩ | ⟨cur, hcur, hcount⟩
      · rw [hopen]
        exact h.opens hover
      · rw [hcount]
        dsimp only
        split_ifs with hlimit
        · exact h.counted hcur
        · exact h.counts hcur (by simpa using hlimit)
  | body i raw =>
      simp only [RpcProxy.next]
      split
      next w hw =>
        split
        next calls hcalls =>
          refine h.ends i (fun w' => ?_) fun f hf => ?_
          · have hcount := count_eraseIdx hw w'
            simp only [State.admitted, State.bodies, List.countP_append, List.countP_singleton,
              decide_eq_true_eq]
            omega
          · rcases List.mem_append.mp hf with hf | hf
            · exact h.screened f hf
            · rw [List.mem_singleton.mp hf]
              exact checkBody_ok hcalls
        · exact h.unread i
      · exact h
  | aborts i => exact h.unread i
  | sweep =>
      refine h.mono rfl le_rfl (fun ip cur hcur => ?_) (fun ip cur hcur => ?_) (fun w => le_rfl)
        h.screened
      · exact ⟨cur, (Option.filter_eq_some_iff.mp hcur).1, rfl, le_rfl⟩
      · by_cases hlt : cur.resetAt < s.now
        · exact .inl hlt
        · exact .inr ⟨cur, Option.filter_eq_some_iff.mpr ⟨hcur, by simpa using hlt⟩, rfl⟩

/-! ## Runs -/

theorem start_ok : Ok maxReq .start where
  quota _ := Nat.zero_le _
  current _ _ h := by cases h
  known _ _ := rfl
  past _ h := by cases h
  begun _ h := by cases h
  apart := .nil
  screened _ h := by cases h

/-- What was forwarded was sent in the window of its request, and is one call. -/
def Prompt (s : State) : Prop :=
  ∀ f ∈ s.forwarded, f.window ∈ s.opened ∧ f.window.resetAt - windowMs ≤ f.time ∧
    f.time ≤ f.window.resetAt ∧ f.calls ≤ 1

theorem calls_of_checkBody {f : Forward} {calls : List Value} (h : checkBody f.raw = .ok calls) :
    f.calls = calls.length := by
  unfold checkBody at h
  split_ifs at h
  split at h
  · cases h
  next body hbody =>
    split at h <;> cases h
    rw [Forward.calls, hbody]
    rfl

theorem Ok.opened_of_reading (h : Ok maxReq s) {w : Window} (hw : w ∈ s.reading) :
    w ∈ s.opened := by
  by_contra hnew
  have hzero := h.known w hnew
  have hcount := List.count_pos_iff.mpr hw
  unfold State.admitted at hzero
  omega

theorem Prompt.of_opened (h : Prompt s) (hforwarded : t.forwarded = s.forwarded)
    (hopened : ∀ w ∈ s.opened, w ∈ t.opened) : Prompt t := by
  intro f hf
  rw [hforwarded] at hf
  obtain ⟨hmem, htime⟩ := h f hf
  exact ⟨hopened _ hmem, htime⟩

theorem Prompt.next (h : Prompt s) (hok : Ok maxReq s) {op : Op} (hin : InTime s op) :
    Prompt (next maxReq s op) := by
  cases op with
  | elapses ms => exact h
  | post forwardedFor realIp =>
      rw [RpcProxy.next]
      rcases @limited_cases maxReq s (clientIp forwardedFor realIp) with
        ⟨-, hopen⟩ | ⟨cur, -, hcount⟩
      · rw [hopen]
        exact h.of_opened rfl fun w hw => List.mem_cons_of_mem _ hw
      · rw [hcount]
        dsimp only
        split <;> exact h.of_opened rfl fun w hw => hw
  | body i raw =>
      simp only [RpcProxy.next]
      split
      next w hw =>
        split
        next calls hcalls =>
          obtain ⟨htime, hsingle⟩ := hin w hw calls (by rw [hcalls]; rfl)
          have hopened := hok.opened_of_reading (List.mem_of_getElem? hw)
          intro f hf
          rcases List.mem_append.mp hf with hf | hf
          · exact h f hf
          · obtain rfl := List.mem_singleton.mp hf
            refine ⟨hopened, hok.begun w hopened, htime, ?_⟩
            exact (calls_of_checkBody hcalls).trans_le hsingle
        · exact h
      · exact h
  | aborts i => exact h
  | sweep => exact h

/-- No two windows of an IP share a moment. -/
theorem Ok.window_eq (h : Ok maxReq s) {w v : Window} (hw : w ∈ s.opened) (hv : v ∈ s.opened)
    (hip : w.ip = v.ip) {time : ℤ} (hwt : w.resetAt - windowMs ≤ time ∧ time ≤ w.resetAt)
    (hvt : v.resetAt - windowMs ≤ time ∧ time ≤ v.resetAt) : w = v := by
  by_contra hne
  rcases h.apart.forall hw hv hne hip with hlt | hlt
  · exact absurd (hwt.2.trans_lt hlt) (not_lt.mpr hvt.1)
  · exact absurd (hvt.2.trans_lt hlt) (not_lt.mpr hwt.1)

theorem sum_calls_le {l : List Forward} (h : ∀ f ∈ l, f.calls ≤ 1) :
    (l.map Forward.calls).sum ≤ l.length := by
  have hsum := List.sum_le_card_nsmul (l.map Forward.calls) 1 (by simpa using h)
  simpa using hsum

theorem Ok.callsWithin_le (h : Ok maxReq s) (hprompt : Prompt s) {w : Window} (hw : w ∈ s.opened) :
    s.callsWithin w ≤ max 1 maxReq := by
  calc s.callsWithin w
    _ ≤ (s.forwarded.filter fun f =>
          f.window.ip = w.ip ∧ w.resetAt - windowMs ≤ f.time ∧ f.time ≤ w.resetAt).length :=
        sum_calls_le fun f hf => (hprompt f (List.mem_of_mem_filter hf)).2.2.2
    _ ≤ s.bodies w := by
        rw [← List.countP_eq_length_filter]
        refine List.countP_mono_left fun f hf hin => ?_
        obtain ⟨hopened, hbegin, hend, -⟩ := hprompt f hf
        simp only [decide_eq_true_eq] at hin ⊢
        exact h.window_eq hopened hw hin.1 ⟨hbegin, hend⟩ hin.2
    _ ≤ s.admitted w := Nat.le_add_left _ _
    _ ≤ max 1 maxReq := h.quota w

/-- In every run in which the bodies that are forwarded are single calls and arrive in
the window of their request, no more calls than the limit are sent in a window; every
call that is forwarded is allowed. -/
theorem proxy_budget (maxReq : ℕ) (hmax : 1 ≤ maxReq) (ops : List Op)
    (h : (machine maxReq).Along InTime .start ops) :
    let s := (machine maxReq).run .start ops
    (∀ w ∈ s.opened, s.callsWithin w ≤ maxReq) ∧ ∀ f ∈ s.forwarded, Screened f.raw := by
  have hstep (s : State) (op : Op) (t : State) (hs : Ok maxReq s ∧ Prompt s) (hin : InTime s op)
      (ht : (machine maxReq).step s op = .ok t) : Ok maxReq t ∧ Prompt t := by
    cases ht
    exact ⟨hs.1.next op, hs.2.next hs.1 hin⟩
  obtain ⟨hok, hprompt⟩ := h.preserves hstep ⟨@start_ok maxReq, fun f hf => by cases hf⟩
  refine ⟨fun w hw => ?_, hok.screened⟩
  exact (hok.callsWithin_le hprompt hw).trans (max_eq_right hmax).le

def slotCall : List Char := "\x7b\"method\":\"getSlot\"\x7d".toList

def localIp : Ip := "127.0.0.1".toList

def slotPost : Op := .post none (some localIp)

/-- Three requests in one window, and one in the next. -/
def promptOps : List Op :=
  [slotPost, slotPost, .body 1 slotCall, .body 0 slotCall, slotPost, .elapses 60001, slotPost,
    .body 0 slotCall]

theorem proxy_budget_kept :
    let s := (machine 2).run .start promptOps
    s.opened = [⟨localIp, 120001⟩, ⟨localIp, 60000⟩] ∧ s.callsWithin ⟨localIp, 60000⟩ = 2 ∧
      (∀ w ∈ s.opened, s.callsWithin w ≤ 2) ∧ ∀ f ∈ s.forwarded, Screened f.raw := by
  have h := proxy_budget 2 (by decide) promptOps (by decide +kernel)
  exact ⟨by decide +kernel, by decide +kernel, h⟩

/-! ## Batches and late bodies -/

/-- One request with a batch of three calls. -/
def batchOps : List Op :=
  [slotPost, .body 0 ('[' :: slotCall ++ ',' :: slotCall ++ ',' :: slotCall ++ [']'])]

/-- Two requests, and two when their window is over; then all the bodies arrive. -/
def lateOps : List Op :=
  [slotPost, slotPost, .elapses 60001, slotPost, slotPost, .body 0 slotCall, .body 0 slotCall,
    .body 0 slotCall, .body 0 slotCall]

/-- With a limit of two, one batch sends three calls in a window, and late bodies send
four. -/
theorem proxy_overruns :
    let batched := (machine 2).run .start batchOps
    let late := (machine 2).run .start lateOps
    (⟨localIp, 60000⟩ ∈ batched.opened ∧ batched.callsWithin ⟨localIp, 60000⟩ = 3) ∧
      ⟨localIp, 120001⟩ ∈ late.opened ∧ late.callsWithin ⟨localIp, 120001⟩ = 4 := by
  decide +kernel

end ProofBook.RpcProxy
