import Espo.Subfrost.RequestIndex

/-!
# Unwrap requests over blocks and rewinds

The module indexes blocks, and a reorganisation takes the tree back to the state after an earlier block. In
every state the requests are those of the blocks of the chain. Each is fulfilled by the transaction that
spends its outpoint, in its own block or in a later one.
-/

namespace Espo.Subfrost
open Lib Alkanes Essentials List

variable {T : Type} [DecidableEq T]

/-! ## Chains -/

section Chains

variable (chain : List (SubfrostBlock T))

/-- The spends of a chain of blocks. -/
def chainSpends : List ((T × ℕ) × T) :=
  chain.flatMap fun block => collectUnwrapRequestSpends block.transactions

/-- A request of a block of the chain, fulfilled by the transaction of this or a later block that spends its
outpoint. -/
def FulfilledIn (r : UnwrapRequest T) : Prop :=
  ∃ before block after, chain = before ++ block :: after ∧ (∃ tx ∈ block.transactions, tx.txid = r.txid) ∧
    ∀ t, r.fulfillmentTx = some t ↔ (r.outpoint, t) ∈ chainSpends (block :: after)

variable {chain : List (SubfrostBlock T)} {block : SubfrostBlock T}

omit [DecidableEq T] in
lemma SpentOnce.of_append {before after : List ((T × ℕ) × T)} (h : SpentOnce (before ++ after)) :
    SpentOnce after := by
  unfold SpentOnce at h ⊢
  rw [map_append] at h
  exact h.of_append_right

lemma FulfilledIn.settle {r : UnwrapRequest T} (h : FulfilledIn chain r)
    (honce : SpentOnce (chainSpends (chain ++ [block]))) :
    FulfilledIn (chain ++ [block]) (r.settle (collectUnwrapRequestSpends block.transactions)) := by
  obtain ⟨before, created, after, rfl, htx, hspent⟩ := h
  have hlast : SpentOnce (collectUnwrapRequestSpends block.transactions) := by
    simp only [chainSpends, flatMap_append] at honce
    simpa using SpentOnce.of_append honce
  refine ⟨before, created, after ++ [block], by simp, htx, ?_⟩
  intro t
  have hsplit : chainSpends (created :: (after ++ [block]))
      = chainSpends (created :: after) ++ collectUnwrapRequestSpends block.transactions := by
    simp [chainSpends]
  rw [hsplit, mem_append, UnwrapRequest.settle_outpoint, ← hspent, ← fulfillmentByOutpoint_eq_some hlast]
  show r.fulfillmentTx.or _ = some t ↔ _
  cases hful : r.fulfillmentTx with
  | none => simp
  | some t' =>
    -- an outpoint that was spent before is not spent again
    have hearly := (hspent t').1 hful
    have hunspent : (fulfillmentByOutpoint (collectUnwrapRequestSpends block.transactions)).get r.outpoint
        = none := by
      rw [Option.eq_none_iff_forall_ne_some]
      intro u hu
      have hlate := (fulfillmentByOutpoint_eq_some hlast).1 hu
      have hnodup : SpentOnce (chainSpends (created :: (after ++ [block]))) := by
        have hwhole : chainSpends (before ++ created :: after ++ [block])
            = chainSpends before ++ chainSpends (created :: (after ++ [block])) := by simp [chainSpends]
        rw [hwhole] at honce
        exact honce.of_append
      unfold SpentOnce at hnodup
      rw [hsplit, map_append] at hnodup
      exact (nodup_append.1 hnodup).2.2 _ (List.mem_map_of_mem hearly) _ (List.mem_map_of_mem hlate) rfl
    rw [hunspent]
    simp

lemma fulfilledIn_of_mem (bitcoin : BitcoinDecode)
    (honce : SpentOnce (collectUnwrapRequestSpends block.transactions)) {r : UnwrapRequest T}
    (hr : r ∈ unwrapRequests bitcoin block) : FulfilledIn (chain ++ [block]) r := by
  obtain ⟨htx, hful⟩ := mem_unwrapRequests bitcoin hr
  refine ⟨chain, block, [], rfl, htx, ?_⟩
  intro t
  rw [hful, fulfillmentByOutpoint_eq_some honce]
  simp [chainSpends]

end Chains

/-! ## Runs -/

section Runs

/-- What happens to the store: a block, or a rewind over the last blocks. -/
inductive UnwrapEvent (T : Type) where
  | block (order : HashOrder) (block : SubfrostBlock T)
  | rewind (blocks : ℕ)

/-- The blocks of the chain, the last one first, each with the state after it. -/
abbrev UnwrapHistory (T : Type) := List (SubfrostBlock T × UnwrapStore T)

/-- The state now. -/
def UnwrapHistory.current (history : UnwrapHistory T) : UnwrapStore T :=
  (history.head?.map Prod.snd).getD .empty

/-- The blocks indexed, the first one first. -/
def UnwrapHistory.chain (history : UnwrapHistory T) : List (SubfrostBlock T) :=
  (history.map Prod.fst).reverse

variable (bitcoin : BitcoinDecode)

/-- One event. A block that is skipped is not part of the chain. -/
def UnwrapHistory.step (history : UnwrapHistory T) : UnwrapEvent T → UnwrapHistory T
  | .block order block =>
    if history.current.indexHeight.any fun prev => block.height ≤ prev then history
    else (block, indexBlock bitcoin order history.current block) :: history
  | .rewind blocks => history.drop blocks

variable (events : List (UnwrapEvent T))

/-- A run from the empty store. -/
def runUnwrap : UnwrapHistory T :=
  events.foldl (UnwrapHistory.step bitcoin) []

/-- The state holds requests of the chain. -/
def UnwrapHistory.Inv (history : UnwrapHistory T) : Prop :=
  ∃ requests, history.current.Holds requests ∧ ∀ r ∈ requests, FulfilledIn history.chain r

lemma UnwrapHistory.Inv.cons {history : UnwrapHistory T} (h : history.Inv) {order : HashOrder}
    {block : SubfrostBlock T}
    (hheight : ¬ history.current.indexHeight.any fun prev => block.height ≤ prev)
    (honce : SpentOnce (chainSpends (history.chain ++ [block])))
    (hdistinct : DistinctAddresses (unwrapRequests bitcoin block)) :
    UnwrapHistory.Inv ((block, indexBlock bitcoin order history.current block) :: history) := by
  obtain ⟨requests, hholds, hful⟩ := h
  have hlast : SpentOnce (collectUnwrapRequestSpends block.transactions) := by
    simp only [chainSpends, flatMap_append] at honce
    simpa using SpentOnce.of_append honce
  have hchain : UnwrapHistory.chain ((block, indexBlock bitcoin order history.current block) :: history)
      = history.chain ++ [block] := by
    simp [UnwrapHistory.chain]
  refine ⟨_, hholds.indexBlock bitcoin order hheight hlast hdistinct, ?_⟩
  intro r hr
  rw [hchain]
  rcases mem_append.1 hr with hold | hnew
  · obtain ⟨r₀, hr₀, rfl⟩ := List.mem_map.1 hold
    exact (hful r₀ hr₀).settle honce
  · exact fulfilledIn_of_mem bitcoin hlast hnew

/-- The invariant holds in the current state and in all that a rewind can go back to. -/
theorem runUnwrap_inv
    (honce : ∀ done, done <+: events → SpentOnce (chainSpends (runUnwrap bitcoin done).chain))
    (hdistinct : ∀ order block, .block order block ∈ events → DistinctAddresses (unwrapRequests bitcoin block)) :
    ∀ history, history <:+ runUnwrap bitcoin events → UnwrapHistory.Inv history := by
  induction events using List.reverseRecOn with
  | nil =>
    intro history hsuffix
    obtain rfl : history = [] := suffix_nil.1 hsuffix
    exact ⟨[], UnwrapStore.holds_empty, by simp⟩
  | append_singleton events event ih =>
    have ih := ih (fun done hdone => honce done (hdone.trans (prefix_append _ _)))
      fun order block hmem => hdistinct order block (mem_append_left _ hmem)
    have hrun : runUnwrap bitcoin (events ++ [event]) = (runUnwrap bitcoin events).step bitcoin event := by
      simp [runUnwrap]
    intro history hsuffix
    rw [hrun] at hsuffix
    cases event with
    | rewind blocks => exact ih history (hsuffix.trans (drop_suffix _ _))
    | block order block =>
      have hnow := honce _ prefix_rfl
      rw [hrun] at hnow
      simp only [UnwrapHistory.step] at hsuffix hnow
      split_ifs at hsuffix hnow with hheight
      · exact ih history hsuffix
      · rcases suffix_cons_iff.1 hsuffix with rfl | hold
        · refine (ih _ suffix_rfl).cons bitcoin hheight ?_ (hdistinct order block (by simp))
          simpa [UnwrapHistory.chain] using hnow
        · exact ih history hold

/-- After any blocks and rewinds, the list of an address has the requests of the list of all that go by its
key, a request is fulfilled by the transaction of its own or a later block that spends its outpoint, and a
pending row is there for the outpoints that some request waits for. The chain spends no outpoint twice, and
no block has two addresses that differ only behind the bytes that a key takes. -/
theorem runUnwrap_consistent (events : List (UnwrapEvent T))
    (honce : ∀ done, done <+: events → SpentOnce (chainSpends (runUnwrap bitcoin done).chain))
    (hdistinct : ∀ order block, .block order block ∈ events →
      DistinctAddresses (unwrapRequests bitcoin block)) :
    let history := runUnwrap bitcoin events
    let s := history.current
    (∀ spk, s.addressRequests spk
      = s.allRequests.filter fun r => pushSpk r.addressSpk = pushSpk spk) ∧
    (∀ r ∈ s.allRequests, FulfilledIn history.chain r) ∧
    ∀ o, s.rows.get (.pending o) ≠ none ↔
      ∃ r ∈ s.allRequests, r.outpoint = o ∧ r.fulfillmentTx = none := by
  intro history s
  obtain ⟨requests, hholds, hful⟩ := runUnwrap_inv bitcoin events honce hdistinct history suffix_rfl
  rw [hholds.allRequests]
  refine ⟨hholds.addressRequests, hful, ?_⟩
  intro o
  have hrow : s.rows.get (.pending o) ≠ none ↔ refsFor requests o ≠ [] := by
    rw [hholds (.pending o)]
    simp [requestRows]
  rw [hrow, ne_eq, refsFor_eq_nil]
  simp [UnwrapRequest.waitsFor]

end Runs

/-! ## Examples of runs -/

section Witnesses

/-- Hash maps that are iterated in the order of their entries. -/
def listOrder : HashOrder := ⟨id, .refl⟩

/-- No bytes decode. -/
def noDecode : BitcoinDecode := ⟨fun _ => false, fun _ => false⟩

/-- A call that unwraps 5 units and names the first output. -/
def unwrapCall : InvokeData where
  typ := "call".toList
  myself := ⟨"0x20".toList, "0x0".toList⟩
  inputs := ["0x4e".toList, "0x0".toList]
  incomingAlkanes := [⟨⟨"0x20".toList, "0x0".toList⟩, "0x5".toList⟩]

/-- A transaction with this call: its first output pays the signer, its second one the owner. -/
def unwrapTx (txid : ℕ) (input : List (Option (ℕ × ℕ))) (owner : Spk) : SubfrostTx ℕ where
  txid := txid
  input := input
  output := [⟨546, [7]⟩, ⟨546, owner⟩]
  protostones := [⟨1, some 1⟩]
  traces := [⟨[], [.opening unwrapCall, .closing ⟨.success, [], [], []⟩]⟩]

/-- A block with the script of the signer that `unwrapTx` pays. -/
def unwrapBlock (height : ℕ) (transactions : List (SubfrostTx ℕ)) : SubfrostBlock ℕ where
  height := height
  time := 0
  hostFunctionValues := ⟨[], [], [], []⟩
  signerScript := some [7]
  fetch := fun _ => none
  transactions := transactions

/-- Two requests, a block that fulfils one of them and makes a third, and a rewind over that block. -/
def fulfilledAndRewound : List (UnwrapEvent ℕ) :=
  [.block listOrder (unwrapBlock 1 [unwrapTx 1 [] [1], unwrapTx 2 [] [2]]),
    .block listOrder (unwrapBlock 2 [unwrapTx 3 [none, some (1, 0)] [2]]), .rewind 1]

theorem runUnwrap_consistent_rewound :
    let s := (runUnwrap noDecode fulfilledAndRewound).current
    s.allRequests.length = 2 ∧ ∀ o, s.rows.get (.pending o) ≠ none ↔
      ∃ r ∈ s.allRequests, r.outpoint = o ∧ r.fulfillmentTx = none := by
  refine ⟨by decide +kernel, (runUnwrap_consistent noDecode fulfilledAndRewound ?_ ?_).2.2⟩
  · have hstates : ∀ done ∈ fulfilledAndRewound.inits,
        ((chainSpends (runUnwrap noDecode done).chain).map Prod.fst).Nodup := by decide +kernel
    exact fun done hdone => hstates done ((mem_inits _ _).2 hdone)
  · intro order block hmem
    simp only [fulfilledAndRewound, mem_cons, reduceCtorEq, not_mem_nil,
      or_false] at hmem
    rcases hmem with ⟨-, rfl⟩ | ⟨-, rfl⟩ <;> unfold DistinctAddresses <;> decide +kernel

/-- One block with the requests of two addresses. -/
def twoAddresses (a b : Spk) : List (UnwrapEvent ℕ) :=
  [.block listOrder (unwrapBlock 1 [unwrapTx 1 [] a, unwrapTx 2 [] b])]

/-- The appends for these two requests, when the addresses have the same key. -/
theorem appends_twoAddresses {a b : Spk} (hne : a ≠ b) (hkey : pushSpk a = pushSpk b) :
    buildUnwrapRequestAppends listOrder (.empty : UnwrapStore ℕ)
      [⟨0, 1, 0, 5, a, none⟩, ⟨0, 2, 0, 5, b, none⟩] =
    [(.allItem 0, .request ⟨0, 1, 0, 5, a, none⟩), (.addressItem (pushSpk b) 0, .request ⟨0, 1, 0, 5, a, none⟩),
      (.allItem 1, .request ⟨0, 2, 0, 5, b, none⟩), (.addressItem (pushSpk b) 0, .request ⟨0, 2, 0, 5, b, none⟩),
      (.allLength, .length 2), (.addressLength (pushSpk b), .length 1), (.addressLength (pushSpk b), .length 1),
      (.pending (2, 0), .refs [⟨1, b, 0⟩]), (.pending (1, 0), .refs [⟨0, a, 0⟩])] := by
  have haddress : (AList.singleton a 1 : AList fun _ : Spk => ℕ).lookup b = none :=
    AList.lookup_eq_none.2 (by simp [AList.mem_keys, hne.symm])
  have hpending : (AList.singleton (1, 0) [⟨0, a, 0⟩] : AList fun _ : ℕ × ℕ => List UnwrapRequestListRef).lookup
      (2, 0) = none := AList.lookup_eq_none.2 (by simp [AList.mem_keys])
  have herase : List.kerase b [(⟨a, 1⟩ : Sigma fun _ : Spk => ℕ)] = [⟨a, 1⟩] :=
    kerase_of_notMem_keys (by simp [hne.symm])
  simp [buildUnwrapRequestAppends, RequestAppends.step, UnwrapStore.readLen, UnwrapStore.readRefs,
    UnwrapStore.empty, listOrder, UnwrapRequest.outpoint, addressItemKey, addressLengthKey, hkey, haddress,
    hpending, herase]

/-- The second request takes the place of the first one in the list of both. -/
theorem requests_twoAddresses {a b : Spk} (hne : a ≠ b) (hkey : pushSpk a = pushSpk b) :
    let s := (runUnwrap noDecode (twoAddresses a b)).current
    s.allRequests = [⟨0, 1, 0, 5, a, none⟩, ⟨0, 2, 0, 5, b, none⟩] ∧
      s.addressRequests a = [⟨0, 2, 0, 5, b, none⟩] := by
  intro s
  have hrows : s.rows = (∅ : Table (UnwrapKey ℕ) (UnwrapValue ℕ)).putAll
      (buildUnwrapRequestAppends listOrder (.empty : UnwrapStore ℕ)
        [⟨0, 1, 0, 5, a, none⟩, ⟨0, 2, 0, 5, b, none⟩]) := by
    exact writeBatch_dedupeOps ∅ _ []
  rw [appends_twoAddresses hne hkey] at hrows
  simp [UnwrapStore.allRequests, UnwrapStore.addressRequests, UnwrapStore.readUnwrapRequestListAll,
    UnwrapStore.readLen, UnwrapStore.readRequest, hrows, Table.putAll, Table.get_put, addressLengthKey,
    addressItemKey, hkey, range_succ]

/-- A script of 65536 bytes. -/
def longScript (last : UInt8) : Spk := List.replicate 65535 0 ++ [last]

lemma pushSpk_longScript (last : UInt8) : pushSpk (longScript last) = List.replicate 65535 0 :=
  take_left' length_replicate

/-- Of two addresses that share a key the first one loses its request. -/
theorem longScripts_lose_copy :
    let s := (runUnwrap noDecode (twoAddresses (longScript 0) (longScript 1))).current
    ∃ r ∈ s.allRequests, r ∉ s.addressRequests r.addressSpk := by
  have hne : longScript 0 ≠ longScript 1 := fun h => absurd (append_cancel_left h) (by decide)
  have hrequests := requests_twoAddresses hne (by rw [pushSpk_longScript, pushSpk_longScript])
  refine ⟨⟨0, 1, 0, 5, longScript 0, none⟩, ?_, ?_⟩
  · rw [hrequests.1]
    exact mem_cons_self
  · rw [hrequests.2]
    simp

end Witnesses
end Espo.Subfrost
