import ProofBook.Settlers

/-!
# What the settlers may do

A step of either settler is one of a few: it goes on, it records or announces a
resolution, or it is told what an account says. What a settler holds is then sound in any
run: an account it has read was the market's, and once its settlement has landed the
market is resolved.
-/
namespace ProofBook.Settlers
open Addresses Objects DbSync Store Chain Catalogue Transactions
open ProofBook.State (Market)
open OracleWire (OracleProgram)
open Program (Instruction)
open Lifecycle
open Keeper (Failure)

variable {D : Type} {cfg : Config D} {s t : State D} {pda : Pubkey} {a : Attempt D}
  {r : Reply D} {i : ℕ} {v : Walk D}

/-! ## The settler -/

/-- The memory but for the phases of records and their counts of attempts. -/
structure Retouched (d d' : StoreData) : Prop where
  fixtures : d'.fixtures = d.fixtures
  receipts : d'.receipts = d.receipts
  markets : ∀ m ∈ d'.markets.values, ∃ m₀ ∈ d.markets.values,
    m.marketPda = m₀.marketPda ∧ m.settleTx = m₀.settleTx

theorem Retouched.refl (d : StoreData) : Retouched d d :=
  ⟨rfl, rfl, fun m hm => ⟨m, hm, rfl, rfl⟩⟩

theorem Retouched.trans {d₁ d₂ d₃ : StoreData} (h : Retouched d₁ d₂) (h' : Retouched d₂ d₃) :
    Retouched d₁ d₃ where
  fixtures := h'.fixtures.trans h.fixtures
  receipts := h'.receipts.trans h.receipts
  markets m hm := by
    obtain ⟨m₂, hm₂, hpda₂, htx₂⟩ := h'.markets m hm
    obtain ⟨m₁, hm₁, hpda₁, htx₁⟩ := h.markets m₂ hm₂
    exact ⟨m₁, hm₁, hpda₂.trans hpda₁, htx₂.trans htx₁⟩

theorem Retouched.set {d : StoreData} {m m' : MarketRecord} (hm : m ∈ d.markets.values)
    (hpda : m'.marketPda = m.marketPda) (htx : m'.settleTx = m.settleTx) :
    Retouched d { d with markets := d.markets.set m' } where
  fixtures := rfl
  receipts := rfl
  markets x hx := by
    rcases ObjectMap.mem_set.mp hx with rfl | ⟨hx, -⟩
    · exact ⟨m, hm, hpda, htx⟩
    · exact ⟨x, hx, rfl, rfl⟩

/-- What a resumed attempt records: an account, a settle signature and what was proven. -/
def evidence (a : Attempt D) (r : Reply D) : Option (Market D × String × Option ProvenStat) :=
  match a.stop, r with
  | .refetch b settleTx, .market (some m) => some (m, settleTx, some b.proven)
  | .recordProof m, .built b => some (m, a.settleTx, some b.proven)
  | .recordProof m, _ => some (m, a.settleTx, none)
  | .refetchResolved, .market (some m) => some (m, a.settleTx, none)
  | _, _ => none

/-- An attempt after its call returned. -/
structure Attempt.Follows (a : Attempt D) (r : Reply D) (a' : Attempt D) : Prop where
  reply : a'.reply = none
  settleTx : a'.settleTx = a.settleTx
  refetch : ∀ b settleTx, a'.stop = .refetch b settleTx → a.stop = .settle b ∧ r = .sent settleTx
  recordProof : ∀ m, a'.stop = .recordProof m → r = .market (some m)

/-- A resumed attempt goes on or records a resolution. -/
inductive AttemptStep (cfg : Config D) (s : State D) (pda : Pubkey) (a : Attempt D)
    (r : Reply D) : State D → Prop
  | on {data : StoreData} {timer : Bool} {a' : Option (Attempt D)}
      (memory : Retouched s.store.data data) (follows : ∀ x ∈ a', a.Follows r x) :
      AttemptStep cfg s pda a r
        { s with
          store := { s.store with data, timer }
          attempts := Function.update s.attempts pda a' }
  | records {m : Market D} {settleTx : String} {proven : Option ProvenStat}
      (found : evidence a r = some (m, settleTx, proven)) :
      AttemptStep cfg s pda a r ((record cfg s pda m settleTx proven).setAttempt pda none)
  | waits : AttemptStep cfg s pda a r s

theorem AttemptStep.await {stop : AttemptStop D} (h : a.Follows r { a with stop, reply := none }) :
    AttemptStep cfg s pda a r (s.setAttempt pda (some { a with stop, reply := none })) := by
  refine .on (.refl _) fun x hx => ?_
  cases hx
  exact h

theorem AttemptStep.fail (e : Failure) : AttemptStep cfg s pda a r (failAttempt cfg s pda a e) := by
  unfold failAttempt
  split
  · split
    next rec hrec =>
      have hmem := (ObjectMap.get_eq_some.mp hrec).1
      exact .on (.set hmem rfl rfl) fun x hx => by cases hx
    · exact .on (.refl _) fun x hx => by cases hx
  · refine .on (.refl _) fun x hx => ?_
    cases hx
    exact ⟨rfl, rfl, fun _ _ h => (by cases h), fun _ h => (by cases h)⟩

theorem resumeAttempt_step :
    AttemptStep cfg s pda a r (resumeAttempt cfg s pda a r) := by
  unfold resumeAttempt
  dsimp only
  cases hstop : a.stop with
  | fetch =>
      dsimp only
      split
      · split_ifs
        · exact .await ⟨rfl, rfl, fun _ _ h => (by cases h), fun _ h => (by cases h; rfl)⟩
        · exact .fail _
        · exact .await ⟨rfl, rfl, fun _ _ h => (by cases h), fun _ h => (by cases h)⟩
      · exact .fail _
  | proof =>
      dsimp only
      split
      · exact .await ⟨rfl, rfl, fun _ _ h => (by cases h), fun _ h => (by cases h)⟩
      · exact .fail _
  | settle b =>
      dsimp only
      split
      · exact .await ⟨rfl, rfl, fun _ _ h => (by cases h; exact ⟨hstop, rfl⟩),
          fun _ h => (by cases h)⟩
      · exact .await ⟨rfl, rfl, fun _ _ h => (by cases h), fun _ h => (by cases h)⟩
      · exact .fail _
      · exact .fail _
  | refetch b settleTx =>
      dsimp only
      split
      · exact .records (by simp only [evidence, hstop])
      · exact .fail _
  | recordProof m =>
      dsimp only
      split
      · exact .records (by simp only [evidence, hstop])
      · exact .records (by simp only [evidence, hstop])
  | refetchResolved =>
      dsimp only
      split
      · exact .records (by simp only [evidence, hstop])
      · exact .on (.refl _) fun x hx => by cases hx
  | waiting => exact .waits

/-- What a record changes: the memory, and for a settled market the receipts emitted. -/
inductive RecordStep (cfg : Config D) (s : State D) (pda : Pubkey) (onchain : Market D)
    (settleTx : String) (proven : Option ProvenStat) : State D → Prop
  | untracked : RecordStep cfg s pda onchain settleTx proven s
  | settled {rec : MarketRecord} (found : s.store.data.markets.get pda = some rec)
      (status : onchain.status = .settled) :
      RecordStep cfg s pda onchain settleTx proven
        { s with
          store := { s.store with
            data := recordResolution cfg.hex s.store.data rec onchain settleTx proven
            timer := true }
          announced := resolutionReceipt cfg.hex onchain settleTx proven :: s.announced
          counted := pda :: s.counted }
  | cancelled {rec : MarketRecord} (found : s.store.data.markets.get pda = some rec)
      (status : onchain.status ≠ .settled) :
      RecordStep cfg s pda onchain settleTx proven
        { s with
          store := { s.store with
            data := recordResolution cfg.hex s.store.data rec onchain settleTx proven
            timer := true } }

theorem record_step (onchain : Market D) (settleTx : String) (proven : Option ProvenStat) :
    RecordStep cfg s pda onchain settleTx proven (record cfg s pda onchain settleTx proven) := by
  unfold record
  split
  next rec hrec =>
    dsimp only
    split_ifs with hsettled
    · exact .settled hrec hsettled
    · exact .cancelled hrec hsettled
  · exact .untracked

/-! ## The start of an attempt -/

/-- A step that at most begins an attempt, from a record's own signature. -/
inductive BeginStep (s : State D) : State D → Prop
  | none {data : StoreData} {timer : Bool} (memory : Retouched s.store.data data) :
      BeginStep s { s with store := { s.store with data, timer } }
  | begins {data : StoreData} {timer : Bool} {rec : MarketRecord} {seq : ℤ} {tries : ℕ}
      (memory : Retouched s.store.data data) (found : rec ∈ s.store.data.markets.values) :
      BeginStep s
        { s with
          store := { s.store with data, timer }
          attempts := Function.update s.attempts rec.marketPda
            (some ⟨seq, tries, rec.settleTx.getD "", .fetch, Option.none⟩) }

theorem startAttempt_step (seq : ℤ) : BeginStep s (startAttempt s pda seq) := by
  unfold startAttempt
  split
  next rec hrec =>
    obtain ⟨hmem, rfl⟩ := ObjectMap.get_eq_some.mp hrec
    exact .begins (.set hmem rfl rfl) hmem
  · exact .none (.refl _)

theorem BeginStep.after {data : StoreData} {timer : Bool} (h : Retouched s.store.data data)
    (hstep : BeginStep { s with store := { s.store with data, timer } } t) : BeginStep s t := by
  cases hstep with
  | none memory => exact .none (h.trans memory)
  | @begins data timer rec seq tries memory found =>
      obtain ⟨rec₀, hmem, hpda, htx⟩ := h.markets rec found
      rw [hpda, htx]
      exact .begins (h.trans memory) hmem

theorem settlerFinalised_step (fixtureId : Int64) (seq : ℤ) :
    BeginStep s (settlerFinalised cfg s fixtureId seq) := by
  unfold settlerFinalised
  split
  next rec hrec =>
    split_ifs
    · exact .none (.refl _)
    · have hmem := List.mem_of_find?_eq_some hrec
      let rec' : MarketRecord := { rec with phase := .settling, settleAttempts := 0 }
      have hset : Retouched s.store.data
          { s.store.data with markets := s.store.data.markets.set rec' } := .set hmem rfl rfl
      exact @BeginStep.after _ s _ _ true hset (startAttempt_step seq)
  · exact .none (.refl _)

/-! ## The catalogue settler -/

/-- A walk after its call returned: it never holds an answer, and it reads a market back
only once its settlement was confirmed. -/
structure Walk.Follows (cfg : Config D) (v : Walk D) (r : Reply D) (v' : Walk D) : Prop where
  reply : v'.reply = none
  refetch : ∀ n claimed b settleTx, v'.stop = .refetch n claimed b settleTx →
    v'.pda cfg = v.pda cfg ∧ v.stop = .settle n claimed b ∧ r = .sent settleTx

/-- A resumed walk goes on, and may have found its market settled or announced it. -/
inductive WalkStep (cfg : Config D) (s : State D) (i : ℕ) (v : Walk D) (r : Reply D) :
    State D → Prop
  | on {inFlight : Pubkey → Bool} {v' : Option (Walk D)} (follows : ∀ x ∈ v', v.Follows cfg r x) :
      WalkStep cfg s i v r { s with inFlight, walks := Function.update s.walks i v' }
  | finds {m : Market D} {inFlight : Pubkey → Bool} {v' : Option (Walk D)}
      (follows : ∀ x ∈ v', v.Follows cfg r x) (found : r = .market (some m))
      (settled : m.status = .settled) :
      WalkStep cfg s i v r
        { s with
          inFlight
          walks := Function.update s.walks i v'
          counted := v.pda cfg :: s.counted }
  | announces {n claimed : ℕ} {b : BuiltV3 D} {settleTx : String} {m : Market D}
      {inFlight : Pubkey → Bool} {v' : Option (Walk D)} (follows : ∀ x ∈ v', v.Follows cfg r x)
      (stop : v.stop = .refetch n claimed b settleTx) (found : r = .market (some m)) :
      WalkStep cfg s i v r
        { s with
          inFlight
          walks := Function.update s.walks i v'
          announced := catalogueReceipt cfg m v.market claimed b settleTx :: s.announced
          counted := v.pda cfg :: s.counted }
  | waits : WalkStep cfg s i v r s

/-- A walk that goes on reads. -/
theorem walkOn_read {inFlight : Pubkey → Bool} {fixtureId : Int64} {seq : ℤ}
    {rest : List MarketTypeDef} {x : Walk D} (h : walkOn cfg inFlight fixtureId seq rest = some x) :
    x.stop = .read ∧ x.reply = none := by
  induction rest with
  | nil => cases h
  | cons market rest ih =>
      unfold walkOn at h
      split_ifs at h
      · exact ih h
      · cases h
        exact ⟨rfl, rfl⟩

theorem walkOn_follows {inFlight : Pubkey → Bool} {fixtureId : Int64} {seq : ℤ}
    {rest : List MarketTypeDef} :
    ∀ x ∈ walkOn cfg inFlight fixtureId seq rest, v.Follows cfg r x := by
  intro x hx
  obtain ⟨hstop, hreply⟩ := walkOn_read hx
  exact ⟨hreply, fun _ _ _ _ h => by rw [hstop] at h; cases h⟩

theorem WalkStep.goOn : WalkStep cfg s i v r (goOn cfg s i v) := .on walkOn_follows

theorem WalkStep.finish : WalkStep cfg s i v r (finishAttempt cfg s i v) := .on walkOn_follows

theorem WalkStep.await {stop : WalkStop D}
    (h : ∀ n claimed b settleTx, stop = .refetch n claimed b settleTx →
      v.stop = .settle n claimed b ∧ r = .sent settleTx) :
    WalkStep cfg s i v r (s.setWalk i (some { v with stop, reply := none })) := by
  refine .on fun x hx => ?_
  cases hx
  exact ⟨rfl, fun n claimed b settleTx hstop => ⟨rfl, h n claimed b settleTx hstop⟩⟩

theorem WalkStep.catch (n : ℕ) (e : Failure) :
    WalkStep cfg s i v r (catchAttempt cfg s i v n e) := by
  unfold catchAttempt
  split_ifs
  · exact .finish
  · exact .await fun _ _ _ _ h => by cases h

theorem WalkStep.try {inFlight : Pubkey → Bool} (n : ℕ) :
    WalkStep cfg s i v r (tryAttempt cfg { s with inFlight } i v n) := by
  unfold tryAttempt
  split_ifs
  · refine .on fun x hx => ?_
    cases hx
    exact ⟨rfl, fun _ _ _ _ h => by cases h⟩
  · exact .on walkOn_follows

theorem claimOutcome_step {now : ℤ} {n : ℕ} {onchain : Market D} {val : StatValidationV3 D} :
    WalkStep cfg s i v r (claimOutcome cfg s i v now n onchain val) := by
  unfold claimOutcome
  split
  · exact .catch n _
  · dsimp only
    split_ifs
    · exact .catch n _
    · exact .finish
    · exact .catch n _
    · exact .await fun _ _ _ _ h => by cases h
    · exact .await fun _ _ _ _ h => by cases h

theorem resumeWalk_step (now : ℤ) :
    WalkStep cfg s i v r (resumeWalk cfg s i v now r) := by
  unfold resumeWalk
  dsimp only
  cases hstop : v.stop with
  | read =>
      dsimp only
      split
      next m =>
        split_ifs with hsettled
        · exact .finds walkOn_follows rfl hsettled
        · exact .goOn
        · exact .try 1
      · exact .goOn
  | fetch n =>
      dsimp only
      split
      · split_ifs
        · exact .finish
        · exact .await fun _ _ _ _ h => by cases h
      · exact .finish
      · exact .catch n _
  | proof n m =>
      dsimp only
      split
      · exact claimOutcome_step
      · exact .catch n _
  | lock n claimed b =>
      dsimp only
      split
      · exact .await fun _ _ _ _ h => by cases h
      · exact .catch n _
  | settle n claimed b =>
      dsimp only
      split
      · refine .await fun _ _ _ _ h => ?_
        cases h
        exact ⟨hstop, rfl⟩
      · exact .catch n _
  | refetch n claimed b settleTx =>
      dsimp only
      split
      · exact .announces walkOn_follows hstop rfl
      · exact .catch n _
  | sleeping n => exact .waits

/-! ## What is held is sound -/

/-- An account as it was read: the market's own, and the result it shows stays. -/
def Past (n : Node D) (k : Pubkey) (m : Market D) : Prop :=
  ∃ b, n.world.book? k = some b ∧ marketPda m = k ∧
    (m.status.terminal = true → SameResult m b.market)

structure AttemptSound (n : Node D) (pda : Pubkey) (a : Attempt D) : Prop where
  read : ∀ m, a.reply = some (.market (some m)) → Past n pda m
  recordProof : ∀ m, a.stop = .recordProof m → Past n pda m
  sent : ∀ b settleTx, a.stop = .settle b → a.reply = some (.sent settleTx) →
    n.ResolvedBy pda settleTx b.claimed
  refetch : ∀ b settleTx, a.stop = .refetch b settleTx → n.ResolvedBy pda settleTx b.claimed

structure WalkSound (cfg : Config D) (n : Node D) (v : Walk D) : Prop where
  read : ∀ m, v.reply = some (.market (some m)) → Past n (v.pda cfg) m
  sent : ∀ k claimed b settleTx, v.stop = .settle k claimed b → v.reply = some (.sent settleTx) →
    n.ResolvedBy (v.pda cfg) settleTx claimed
  refetch : ∀ k claimed b settleTx, v.stop = .refetch k claimed b settleTx →
    n.ResolvedBy (v.pda cfg) settleTx claimed

structure Sound (cfg : Config D) (s : State D) : Prop where
  node : NodeOk s.node
  attempts : ∀ pda, ∀ a ∈ s.attempts pda, AttemptSound s.node pda a
  walks : ∀ i, ∀ v ∈ s.walks i, WalkSound cfg s.node v

variable {n n' : Node D}

theorem Past.later {k : Pubkey} {m : Market D} (h : Past n k m) (hl : n.Later n') :
    Past n' k m := by
  obtain ⟨b, hb, hpda, hresult⟩ := h
  obtain ⟨b', hb', hsame⟩ := hl.onward k b hb
  refine ⟨b', hb', hpda, fun ht => ?_⟩
  have hm := hresult ht
  have hb := hsame (by rw [hm.status]; exact ht)
  exact ⟨hb.status.trans hm.status, hb.winningOutcome.trans hm.winningOutcome,
    hb.totalWinningPool.trans hm.totalWinningPool, hb.feeAmount.trans hm.feeAmount,
    hb.settledAt.trans hm.settledAt, hb.settleProofRef.trans hm.settleProofRef,
    hb.settleProofTs.trans hm.settleProofTs, hb.settleEpochDay.trans hm.settleEpochDay,
    hb.settleDailyRoots.trans hm.settleDailyRoots, hb.settleResolver.trans hm.settleResolver⟩

/-- What is read now. -/
theorem past_book (hn : NodeOk n) {k : Pubkey} {b : Book D} (hb : n.world.book? k = some b) :
    Past n k b.market :=
  ⟨b, hb, (hn.wellFormed.books k b hb).key.symm,
    fun _ => ⟨rfl, rfl, rfl, rfl, rfl, rfl, rfl, rfl, rfl, rfl⟩⟩

theorem AttemptSound.later (h : AttemptSound n pda a) (hl : n.Later n') :
    AttemptSound n' pda a where
  read m hm := (h.read m hm).later hl
  recordProof m hm := (h.recordProof m hm).later hl
  sent b settleTx hstop hreply := hl.resolvedBy (h.sent b settleTx hstop hreply)
  refetch b settleTx hstop := hl.resolvedBy (h.refetch b settleTx hstop)

theorem WalkSound.later (h : WalkSound cfg n v) (hl : n.Later n') : WalkSound cfg n' v where
  read m hm := (h.read m hm).later hl
  sent k claimed b settleTx hstop hreply :=
    hl.resolvedBy (h.sent k claimed b settleTx hstop hreply)
  refetch k claimed b settleTx hstop := hl.resolvedBy (h.refetch k claimed b settleTx hstop)

theorem Sound.later (h : Sound cfg s) (hn : NodeOk n') (hl : s.node.Later n') :
    Sound cfg { s with node := n' } where
  node := hn
  attempts pda a ha := (h.attempts pda a ha).later hl
  walks i v hv := (h.walks i v hv).later hl

theorem Sound.setAttempt (h : Sound cfg s) {x : Option (Attempt D)}
    (hx : ∀ a ∈ x, AttemptSound s.node pda a) : Sound cfg (s.setAttempt pda x) where
  node := h.node
  attempts k a ha := by
    by_cases hk : k = pda
    · subst hk
      exact hx a (by simpa [State.setAttempt] using ha)
    · exact h.attempts k a (by simpa [State.setAttempt, hk] using ha)
  walks := h.walks

theorem Sound.setWalk (h : Sound cfg s) {x : Option (Walk D)}
    (hx : ∀ v ∈ x, WalkSound cfg s.node v) : Sound cfg (s.setWalk i x) where
  node := h.node
  attempts := h.attempts
  walks j v hv := by
    by_cases hj : j = i
    · subst hj
      exact hx v (by simpa [State.setWalk] using hv)
    · exact h.walks j v (by simpa [State.setWalk, hj] using hv)

/-- Only the node, the attempts and the walks matter. -/
theorem Sound.congr (h : Sound cfg s) (hnode : t.node = s.node)
    (hattempts : t.attempts = s.attempts)
    (hwalks : t.walks = s.walks) : Sound cfg t where
  node := hnode ▸ h.node
  attempts := by rw [hnode, hattempts]; exact h.attempts
  walks := by rw [hnode, hwalks]; exact h.walks

theorem AttemptSound.follows (h : AttemptSound n pda a) (hr : a.reply = some r)
    {x : Attempt D} (hx : a.Follows r x) : AttemptSound n pda x where
  read m hm := by rw [hx.reply] at hm; cases hm
  recordProof m hm := h.read m (hr.trans (congrArg some (hx.recordProof m hm)))
  sent b settleTx _ hreply := by rw [hx.reply] at hreply; cases hreply
  refetch b settleTx hstop := by
    obtain ⟨hsettle, rfl⟩ := hx.refetch b settleTx hstop
    exact h.sent b settleTx hsettle hr

theorem WalkSound.follows (h : WalkSound cfg n v) (hr : v.reply = some r) {x : Walk D}
    (hx : v.Follows cfg r x) : WalkSound cfg n x where
  read m hm := by rw [hx.reply] at hm; cases hm
  sent k claimed b settleTx _ hreply := by rw [hx.reply] at hreply; cases hreply
  refetch k claimed b settleTx hstop := by
    obtain ⟨hpda, hsettle, rfl⟩ := hx.refetch k claimed b settleTx hstop
    exact hpda ▸ h.sent k claimed b settleTx hsettle hr

theorem Sound.recordStep {m : Market D} {settleTx : String} {proven : Option ProvenStat}
    (h : Sound cfg s) (hstep : RecordStep cfg s pda m settleTx proven t) : Sound cfg t := by
  cases hstep with
  | untracked => exact h
  | settled | cancelled => exact h.congr rfl rfl rfl

theorem Sound.attemptStep (h : Sound cfg s) (ha : s.attempts pda = some a) (hr : a.reply = some r)
    (hstep : AttemptStep cfg s pda a r t) : Sound cfg t := by
  have hsound := h.attempts pda a ha
  cases hstep with
  | on memory follows =>
      exact (h.setAttempt fun x hx => hsound.follows hr (follows x hx)).congr rfl rfl rfl
  | @records m settleTx proven found =>
      exact (h.recordStep (record_step m settleTx proven)).setAttempt fun x hx => by cases hx
  | waits => exact h

theorem Sound.walkStep (h : Sound cfg s) (hv : s.walks i = some v) (hr : v.reply = some r)
    (hstep : WalkStep cfg s i v r t) : Sound cfg t := by
  have hsound := h.walks i v hv
  cases hstep with
  | on follows | finds follows | announces follows =>
      exact (h.setWalk fun x hx => hsound.follows hr (follows x hx)).congr rfl rfl rfl
  | waits => exact h

theorem Sound.beginStep (h : Sound cfg s) (hstep : BeginStep s t) : Sound cfg t := by
  cases hstep with
  | none memory => exact h.congr rfl rfl rfl
  | begins memory found =>
      refine (h.setAttempt fun x hx => ?_).congr rfl rfl rfl
      cases hx
      exact ⟨fun _ hm => (by cases hm), fun _ hm => (by cases hm), fun _ _ hm => (by cases hm),
        fun _ _ hm => (by cases hm)⟩

/-- A walk that reads its next market holds nothing. -/
theorem walkOn_sound {inFlight : Pubkey → Bool} {fixtureId : Int64} {seq : ℤ}
    {rest : List MarketTypeDef} :
    ∀ x ∈ walkOn cfg inFlight fixtureId seq rest, WalkSound cfg n x := by
  intro x hx
  obtain ⟨hstop, hreply⟩ := walkOn_read hx
  refine ⟨fun m hm => ?_, fun _ _ _ _ hs => ?_, fun _ _ _ _ hs => ?_⟩
  · rw [hreply] at hm
    cases hm
  · rw [hstop] at hs
    cases hs
  · rw [hstop] at hs
    cases hs

theorem Sound.launch (h : Sound cfg s) (fixtureId : Int64) (seq : ℤ) :
    Sound cfg (launch cfg s fixtureId seq) := by
  unfold Settlers.launch
  split_ifs
  · exact (h.setWalk walkOn_sound).congr rfl rfl rfl
  · exact h

theorem Sound.wakeWalk (h : Sound cfg s) (k : ℕ) : Sound cfg (tryAttempt cfg s i v k) := by
  unfold tryAttempt
  split_ifs
  · refine h.setWalk fun x hx => ?_
    cases hx
    exact ⟨fun _ hm => (by cases hm), fun _ _ _ _ hm => (by cases hm),
      fun _ _ _ _ hm => (by cases hm)⟩
  · have hfree : Sound cfg (s.setInFlight (v.pda cfg) false) := h.congr rfl rfl rfl
    exact hfree.setWalk walkOn_sound

/-! ## What leaves the chain alone -/

theorem BeginStep.node (h : BeginStep s t) : t.node = s.node := by
  cases h <;> rfl

theorem RecordStep.node {m : Market D} {settleTx : String} {proven : Option ProvenStat}
    (h : RecordStep cfg s pda m settleTx proven t) : t.node = s.node := by
  cases h <;> rfl

theorem AttemptStep.node (h : AttemptStep cfg s pda a r t) : t.node = s.node := by
  cases h with
  | records => exact (record_step _ _ _).node
  | on | waits => rfl

theorem WalkStep.node (h : WalkStep cfg s i v r t) : t.node = s.node := by
  cases h <;> rfl

theorem launch_node (fixtureId : Int64) (seq : ℤ) : (launch cfg s fixtureId seq).node = s.node := by
  unfold launch
  split <;> rfl

theorem tryAttempt_node (n : ℕ) : (tryAttempt cfg s i v n).node = s.node := by
  unfold tryAttempt
  split <;> rfl

theorem reply_node (who : Who) : (reply s r who).node = s.node := by
  cases who <;> rfl

/-- The sync only writes its own place and the tables. -/
theorem advanceSync_frame (hex : D → String) (y : Sync D) :
    (advanceSync hex s y).node = s.node ∧ (advanceSync hex s y).attempts = s.attempts ∧
      (advanceSync hex s y).walks = s.walks ∧ (advanceSync hex s y).announced = s.announced ∧
      (advanceSync hex s y).counted = s.counted := by
  unfold advanceSync
  dsimp only
  split <;> (try split) <;> (try split) <;> exact ⟨rfl, rfl, rfl, rfl, rfl⟩

/-! ## Answers -/

variable [Inhabited D] {O : OracleProgram D} {c : Call D}

/-- An answered call: an account is shown as it is, a transaction lands, and else
nothing happens. -/
inductive Served (O : OracleProgram D) (n : Node D) : Call D → Node D → Reply D → Prop
  | account {k : Pubkey} {r : Reply D}
      (shown : r = .market ((n.world.book? k).map (·.market))) : Served O n (.fetchMarket k) n r
  | lands {i : Instruction D} {signature : String} {n' : Node D}
      (lands : n.land O signature [] [i] = some n') : Served O n (.send i) n' (.sent signature)
  | other {c : Call D} {r : Reply D} (market : ∀ m, r ≠ .market m)
      (sent : ∀ signature, r ≠ .sent signature) : Served O n c n r

theorem serve_served {c : Call D} {answer : Answer D} (h : c.serve O n answer = some (n', r)) :
    Served O n c n' r := by
  cases c <;> cases answer <;> simp only [Call.serve, Option.some.injEq, Prod.mk.injEq,
    Option.map_eq_some_iff, reduceCtorEq] at h
  case fetchMarket.served =>
    obtain ⟨rfl, rfl⟩ := h
    exact .account rfl
  case send.served =>
    obtain ⟨n₁, hn₁, rfl, rfl⟩ := h
    exact .lands hn₁
  all_goals
    obtain ⟨rfl, rfl⟩ := h
    exact .other (fun _ h => by cases h) fun _ h => by cases h

theorem serve_sent {c : Call D} {answer : Answer D} {signature : String}
    (h : c.serve O n answer = some (n', .sent signature)) : answer = .served signature := by
  cases c <;> cases answer <;> simp_all [Call.serve]

theorem Served.node (h : Served O n c n' r) (hn : NodeOk n) : NodeOk n' ∧ n.Later n' := by
  cases h with
  | account | other => exact ⟨hn, .refl n⟩
  | lands hland => exact hn.land hland

theorem Served.past {k : Pubkey} {m : Market D} (h : Served O n (.fetchMarket k) n' r)
    (hr : r = .market (some m)) (hn : NodeOk n) : Past n' k m := by
  cases h with
  | account shown =>
      rw [hr, Reply.market.injEq] at shown
      obtain ⟨b, hb, rfl⟩ := Option.map_eq_some_iff.mp shown.symm
      exact past_book hn hb
  | other hm => exact absurd hr (hm m)

theorem Served.resolvedBy {k : Pubkey} {claimedOutcome : ℕ} {i : Instruction D}
    {signature : String} (h : Served O n (.send i) n' r) (hr : r = .sent signature)
    (hi : settleCall i = some (k, claimedOutcome)) : n'.ResolvedBy k signature claimedOutcome := by
  cases h with
  | lands hland =>
      cases hr
      exact (Node.land_settle hi hland).1
  | other _ hs => exact absurd hr (hs signature)

/-- Only a read shows a market, and only a transaction comes back with a signature. -/
theorem Served.call (h : Served O n c n' r) :
    (∀ m, r = .market m → ∃ k, c = .fetchMarket k) ∧
      ∀ signature, r = .sent signature → ∃ i, c = .send i := by
  cases h with
  | @account k r shown =>
      exact ⟨fun _ _ => ⟨k, rfl⟩, fun _ hr => by rw [shown] at hr; cases hr⟩
  | @lands i signature n' hland => exact ⟨fun _ hr => (by cases hr), fun _ _ => ⟨i, rfl⟩⟩
  | other hm hs => exact ⟨fun m hr => absurd hr (hm m), fun _ hr => absurd hr (hs _)⟩

theorem AttemptSound.replied (h : AttemptSound n' pda a) (hn : NodeOk n)
    (hc : attemptCall cfg pda a.stop = some c) (hserve : Served O n c n' r) :
    AttemptSound n' pda { a with reply := some r } where
  read m hm := by
    have hr : r = .market (some m) := Option.some.inj hm
    obtain ⟨k, rfl⟩ := hserve.call.1 _ hr
    have hk : k = pda := by
      cases hstop : a.stop <;> rw [hstop] at hc <;> cases hc <;> rfl
    exact hk ▸ hserve.past hr hn
  recordProof := h.recordProof
  sent b settleTx hstop hreply := by
    rw [show a.stop = .settle b from hstop] at hc
    cases hc
    exact hserve.resolvedBy (Option.some.inj hreply) rfl
  refetch := h.refetch

theorem WalkSound.replied (h : WalkSound cfg n' v) (hn : NodeOk n)
    (hc : walkCall cfg (v.pda cfg) v.stop = some c) (hserve : Served O n c n' r) :
    WalkSound cfg n' { v with reply := some r } where
  read m hm := by
    have hr : r = .market (some m) := Option.some.inj hm
    obtain ⟨k, rfl⟩ := hserve.call.1 _ hr
    have hk : k = v.pda cfg := by
      cases hstop : v.stop <;> rw [hstop] at hc <;> cases hc <;> rfl
    exact hk ▸ hserve.past hr hn
  sent k claimed b settleTx hstop hreply := by
    rw [show v.stop = .settle k claimed b from hstop] at hc
    cases hc
    exact hserve.resolvedBy (Option.some.inj hreply) rfl
  refetch := h.refetch

/-! ## One step -/

theorem machine_step {op : Op D} :
    (machine O cfg).step s op = .ok t ↔ next O cfg s op = some t := by
  cases h : next O cfg s op <;> simp [machine, h]

/-- One step of the service; its parts are those of the relations above. -/
inductive Step (O : OracleProgram D) (cfg : Config D) (s : State D) : Op D → State D → Prop
  | transact {signature : String} {accounts : List Pubkey} {is : List (Instruction D)}
      {node : Node D} (lands : s.node.transact O signature accounts is = some node) :
      Step O cfg s (.transact signature accounts is) { s with node }
  | finalised {fixtureId : Int64} {seq : ℤ} {u : State D} (begins : BeginStep s u) :
      Step O cfg s (.finalised fixtureId seq) (launch cfg u fixtureId seq)
  | attemptDue {pda : Pubkey} {t : State D} (begins : BeginStep s t) :
      Step O cfg s (.attemptDue pda) t
  | wakeWalk {i n : ℕ} {v : Walk D} : Step O cfg s (.wakeWalk i) (tryAttempt cfg s i v (n + 1))
  | answer {who : Who} {a : Answer D} {c : Call D} {node : Node D} {r : Reply D}
      (awaits : awaited cfg s who = some c) (serve : c.serve O s.node a = some (node, r)) :
      Step O cfg s (.answer who a) (reply { s with node } r who)
  | resumeAttempt {pda : Pubkey} {now : ℤ} {a : Attempt D} {r : Reply D} {t : State D}
      (running : s.attempts pda = some a) (returned : a.reply = some r)
      (step : AttemptStep cfg s pda a r t) : Step O cfg s (.resume (.attempt pda) now) t
  | resumeWalk {i : ℕ} {now : ℤ} {v : Walk D} {r : Reply D} {t : State D}
      (running : s.walks i = some v) (returned : v.reply = some r)
      (step : WalkStep cfg s i v r t) : Step O cfg s (.resume (.walk i) now) t
  | startSync {rows : List SyncRow} : Step O cfg s (.startSync rows) (s.setSync (syncOn rows))
  | advanceSync {y : Sync D} (running : s.sync = some y) :
      Step O cfg s .advanceSync (advanceSync cfg.hex s y)
  | syncThrows {y : Sync D} : Step O cfg s .syncThrows (s.setSync (syncOn y.rest))
  | store {op : FlushOp} {store : PgStore} (flush : s.store.step cfg.teamCode op = some store) :
      Step O cfg s (.store op) { s with store }
  | mutate {m : WriteThrough.Mutation} (foreign : Foreign s.store.data m) :
      Step O cfg s (.mutate m) (s.setData (m.apply s.store.data)).save
  | syncMarket {row : MarketRow} {markets : Markets}
      (settleTx : row.settleTx = (s.store.tables.markets.find row.pda).bind (·.settleTx))
      (put : s.store.tables.markets.put row = some markets) :
      Step O cfg s (.syncMarket row) (s.setTables { s.store.tables with markets })
  | importFixture {row : FixtureRow} :
      Step O cfg s (.importFixture row)
        (s.setTables { s.store.tables with fixtures := s.store.tables.fixtures.set row })
  | heal {marketPda : Pubkey} {fixture : FixtureRow} {r : ReceiptRow}
      (found : s.store.tables.receipts.get marketPda = some r) :
      Step O cfg s (.heal marketPda fixture)
        (s.setTables
          { s.store.tables with receipts := s.store.tables.receipts.set (heal fixture r) })
  | restart :
      Step O cfg s .restart
        { s with
          store := .booted s.store.tables
          attempts := fun _ => none
          walks := fun _ => none
          inFlight := fun _ => false
          sync := none }

theorem next_step {op : Op D} (h : next O cfg s op = some t) : Step O cfg s op t := by
  cases op with
  | transact signature accounts is =>
      simp only [next, Option.bind_eq_bind, Option.bind_eq_some_iff, Option.some.injEq] at h
      obtain ⟨node, hnode, rfl⟩ := h
      exact .transact hnode
  | finalised fixtureId seq =>
      cases h
      exact .finalised (settlerFinalised_step fixtureId seq)
  | attemptDue pda =>
      simp only [next, Option.bind_eq_bind, Option.bind_eq_some_iff] at h
      obtain ⟨a, -, h⟩ := h
      split at h <;> cases h
      exact .attemptDue (startAttempt_step a.seq)
  | wakeWalk i =>
      simp only [next, Option.bind_eq_bind, Option.bind_eq_some_iff] at h
      obtain ⟨v, -, h⟩ := h
      split at h <;> cases h
      exact .wakeWalk
  | answer who a =>
      simp only [next, Option.bind_eq_bind, Option.bind_eq_some_iff, Option.some.injEq] at h
      obtain ⟨c, hc, ⟨node, r⟩, hserve, rfl⟩ := h
      exact .answer hc hserve
  | resume who now =>
      cases who with
      | attempt pda =>
          simp only [next, resume, Option.bind_eq_bind, Option.bind_eq_some_iff,
            Option.some.injEq] at h
          obtain ⟨a, ha, r, hr, rfl⟩ := h
          exact .resumeAttempt ha hr resumeAttempt_step
      | walk i =>
          simp only [next, resume, Option.bind_eq_bind, Option.bind_eq_some_iff,
            Option.some.injEq] at h
          obtain ⟨v, hv, r, hr, rfl⟩ := h
          exact .resumeWalk hv hr (resumeWalk_step now)
  | startSync rows =>
      simp only [next, Option.ite_none_right_eq_some, Option.some.injEq] at h
      exact h.2 ▸ .startSync
  | advanceSync =>
      simp only [next, Option.map_eq_some_iff] at h
      obtain ⟨y, hy, rfl⟩ := h
      exact .advanceSync hy
  | syncThrows =>
      simp only [next, Option.map_eq_some_iff] at h
      obtain ⟨y, -, rfl⟩ := h
      exact .syncThrows
  | store op =>
      simp only [next, Option.map_eq_some_iff] at h
      obtain ⟨store, hstore, rfl⟩ := h
      exact .store hstore
  | mutate m =>
      simp only [next, Option.ite_none_right_eq_some, Option.some.injEq] at h
      exact h.2 ▸ .mutate h.1
  | syncMarket row =>
      simp only [next, Option.ite_none_right_eq_some, Option.map_eq_some_iff] at h
      obtain ⟨htx, markets, hput, rfl⟩ := h
      exact .syncMarket htx hput
  | importFixture row =>
      cases h
      exact .importFixture
  | heal marketPda fixture =>
      simp only [next, Option.map_eq_some_iff] at h
      obtain ⟨r, hr, rfl⟩ := h
      exact .heal hr
  | restart =>
      cases h
      exact .restart

/-- Nothing but a landed transaction changes the chain. -/
theorem Step.later {op : Op D} (hn : NodeOk s.node) (h : Step O cfg s op t) :
    NodeOk t.node ∧ s.node.Later t.node := by
  have stays (he : t.node = s.node) : NodeOk t.node ∧ s.node.Later t.node :=
    by rw [he]; exact ⟨hn, .refl _⟩
  cases h with
  | transact lands => exact hn.transact lands
  | finalised begins => exact stays ((launch_node _ _).trans begins.node)
  | attemptDue begins => exact stays begins.node
  | wakeWalk => exact stays (tryAttempt_node _)
  | answer _ serve =>
      rw [reply_node]
      exact (serve_served serve).node hn
  | resumeAttempt _ _ step => exact stays step.node
  | resumeWalk _ _ step => exact stays step.node
  | advanceSync => exact stays (advanceSync_frame _ _).1
  | _ => exact stays rfl

theorem Sound.step {op : Op D} (h : Sound cfg s) (hstep : Step O cfg s op t) : Sound cfg t := by
  obtain ⟨hn, hl⟩ := hstep.later h.node
  cases hstep with
  | transact => exact h.later hn hl
  | finalised begins => exact (h.beginStep begins).launch _ _
  | attemptDue begins => exact h.beginStep begins
  | wakeWalk => exact h.wakeWalk _
  | @answer who a c node r awaits serve =>
      have hserve := serve_served serve
      rw [reply_node] at hn hl
      have hlater := h.later hn hl
      cases who with
      | attempt pda =>
          simp only [awaited, Option.bind_eq_bind, Option.bind_eq_some_iff,
            Option.ite_none_right_eq_some] at awaits
          obtain ⟨a, ha, -, hc⟩ := awaits
          refine hlater.setAttempt fun x hx => ?_
          rw [ha] at hx
          cases hx
          exact (hlater.attempts pda a ha).replied h.node hc hserve
      | walk i =>
          simp only [awaited, Option.bind_eq_bind, Option.bind_eq_some_iff,
            Option.ite_none_right_eq_some] at awaits
          obtain ⟨v, hv, -, hc⟩ := awaits
          refine hlater.setWalk fun x hx => ?_
          rw [hv] at hx
          cases hx
          exact (hlater.walks i v hv).replied h.node hc hserve
  | resumeAttempt running returned step => exact h.attemptStep running returned step
  | resumeWalk running returned step => exact h.walkStep running returned step
  | advanceSync =>
      obtain ⟨hnode, hattempts, hwalks, -⟩ := advanceSync_frame (s := s) cfg.hex _
      exact h.congr hnode hattempts hwalks
  | restart => exact ⟨h.node, fun _ _ ha => (by cases ha), fun _ _ hv => (by cases hv)⟩
  | _ => exact h.congr rfl rfl rfl

end ProofBook.Settlers
