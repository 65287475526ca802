import Espo.Essentials.Visibility
import Espo.Lists.Rows

/-!
# Address index lists

Lists of numbers kept for an address, a pair of alkanes or a height. The lists of one kind share the
chunk ids of the kind.
-/

namespace Espo.Essentials
open Lib TreeDb Espo.Lists

/-- `AddressIndexListKind`. -/
inductive AddressIndexListKind where
  | outpointIdx
  | alkaneTxs
  | alkaneBalanceTxsByToken
  | alkaneBlockTxs
  deriving DecidableEq

/-- `as_key_segment`. -/
def AddressIndexListKind.asKeySegment : AddressIndexListKind → Bytes
  | outpointIdx => ascii "outpoint_idx"
  | alkaneTxs => ascii "alkane_txs"
  | alkaneBalanceTxsByToken => ascii "alkane_balance_txs_by_token"
  | alkaneBlockTxs => ascii "alkane_block_txs"

/-- `ADDRESS_INDEX_INLINE_CAP`. -/
def addressIndexInlineCap : ℕ := 8

/-- `address_index_meta_key`. -/
def addressIndexMetaKey (address : Bytes) (kind : AddressIndexListKind) : Bytes :=
  ascii "/address_index/v2/" ++ kind.asKeySegment ++ ascii "/" ++ address ++ ascii "/meta"

/-- The row of a list in the tree, with the prefix of the module. -/
def addressIndexRowKey (l : AddressIndexListKind × Bytes) : Bytes :=
  ascii "essentials:" ++ addressIndexMetaKey l.2 l.1

/-- `address index chunk {chunk_id} for {kind} is shorter than canonical length {rem}` -/
structure ShortChunk where
  chunkId : ℕ
  kind : AddressIndexListKind
  rem : ℕ

/-- `StateAt::resolve`. -/
def StateAt.resolve {H : Type*} (fallback : Option H) : StateAt H → Option H
  | .latest => fallback
  | .block blockhash => some blockhash

/-- What the list functions use of `EssentialsProvider`. -/
structure AddressIndexProvider (V Id H : Type*) where
  tree : VersionedTreeDb Bytes V Id H
  chunks : ChunkStore AddressIndexListKind ℕ
  viewBlockhash : Option H

section Defs
variable {V Id H : Type*} [DecidableEq Id] [DecidableEq H]
  (codec : StateCodec V) (p : AddressIndexProvider V Id H)

/-- The state row of a list. -/
def AddressIndexProvider.row (stateAt : StateAt H) (kind : AddressIndexListKind) (address : Bytes) :
    Option V :=
  rawGetAt p.tree (addressIndexRowKey (kind, address)) (stateAt.resolve p.viewBlockhash)

/-- The rest of `get_address_index_list_range`, for a state that was found. -/
def addressIndexRange (read : ℕ → Option (List ℕ)) (state : ChunkedList ℕ) (start stop : ℕ) :
    List ℕ :=
  let total := state.total
  if total = 0 then []
  else
    let start := min start total
    let stop := min stop total
    if stop ≤ start then []
    else
      match state with
      | .inline items =>
        let lo := min start items.length
        let hi := min stop items.length
        if hi ≤ lo then [] else (items.take hi).drop lo
      | .external chunkIds _ chunkSize =>
        ChunkedList.readChunks read chunkIds (max chunkSize 1) start stop

/-- `get_address_index_list_range`. -/
def getAddressIndexListRange (stateAt : StateAt H) (kind : AddressIndexListKind) (address : Bytes)
    (start stop : ℕ) : List ℕ :=
  if stop ≤ start then []
  else
    match (p.row stateAt kind address).bind codec.decode with
    | none => []
    | some state => addressIndexRange (p.chunks.read kind) state start stop

/-- `append_address_index_values`. -/
def appendAddressIndexValues (chunkSize : ℕ) (kind : AddressIndexListKind) (address : Bytes)
    (values : List ℕ) (batch : ChunkBatch (AddressIndexListKind × Bytes) AddressIndexListKind ℕ) :
    Except ShortChunk
      (ℕ × ChunkBatch (AddressIndexListKind × Bytes) AddressIndexListKind ℕ) :=
  let current := codec.state (p.row .latest kind address)
  match batch.append Prod.fst addressIndexInlineCap chunkSize (p.chunks.read kind) current
    (kind, address) values with
  | .ok r => .ok r
  | .error (chunkId, rem) => .error ⟨chunkId, kind, rem⟩

/-- The appends of a block. -/
def appendAddressIndexLists (chunkSize : ℕ) :
    List ((AddressIndexListKind × Bytes) × List ℕ) →
    ChunkBatch (AddressIndexListKind × Bytes) AddressIndexListKind ℕ →
    Except ShortChunk (ChunkBatch (AddressIndexListKind × Bytes) AddressIndexListKind ℕ)
  | [], batch => .ok batch
  | ((kind, address), values) :: appends, batch =>
    match appendAddressIndexValues codec p chunkSize kind address values batch with
    | .error e => .error e
    | .ok (_, batch) => appendAddressIndexLists chunkSize appends batch

end Defs

/-! ## Keys -/

/-- A segment has no slash, so it ends where the first slash of a key is. -/
theorem takeWhile_asKeySegment (kind : AddressIndexListKind) (rest : Bytes) :
    (kind.asKeySegment ++ ascii "/" ++ rest).takeWhile (· ≠ 47) = kind.asKeySegment := by
  have hslash : ∀ b ∈ kind.asKeySegment, decide (b ≠ 47) = true := by
    cases kind <;> decide +kernel
  rw [List.append_assoc, List.takeWhile_append_of_pos hslash]
  have hrest : (ascii "/" ++ rest).takeWhile (· ≠ 47) = [] := by
    rw [show ascii "/" ++ rest = 47 :: rest from rfl, List.takeWhile_cons_of_neg (by decide)]
  rw [hrest, List.append_nil]

lemma asKeySegment_injective : Function.Injective AddressIndexListKind.asKeySegment := by
  intro kind kind' h
  cases kind <;> cases kind' <;> first | rfl | exact absurd h (by decide +kernel)

lemma addressIndexRowKey_injective : Function.Injective addressIndexRowKey := by
  rintro ⟨kind, address⟩ ⟨kind', address'⟩ h
  have hkey := List.append_cancel_left h
  simp only [addressIndexMetaKey, List.append_assoc] at hkey
  have hsegment := List.append_cancel_left hkey
  have hkind : kind.asKeySegment = kind'.asKeySegment := by
    rw [← takeWhile_asKeySegment kind (address ++ ascii "/meta"),
      ← takeWhile_asKeySegment kind' (address' ++ ascii "/meta"), List.append_assoc,
      List.append_assoc, hsegment]
  rw [hkind] at hsegment
  have haddress := List.append_cancel_left (List.append_cancel_left hsegment)
  rw [asKeySegment_injective hkind, List.append_cancel_right haddress]

/-! ## Reads and appends -/

section Spec
variable {V Id H : Type*} [DecidableEq Id] [DecidableEq H]
  {codec : StateCodec V} {p : AddressIndexProvider V Id H}

lemma addressIndexRange_eq {read : ℕ → Option (List ℕ)} {state : ChunkedList ℕ} {l : List ℕ}
    (h : state.Represents read l) (start stop : ℕ) :
    addressIndexRange read state start stop = window l start stop := by
  rw [addressIndexRange, h.total_eq, ← window_min_length l start stop]
  simp only
  split_ifs with hzero hle
  · rw [window_eq_nil (by omega)]
  · rw [window_eq_nil hle]
  · cases state with
    | inline items =>
      obtain rfl : items = l := h
      simp only [min_assoc, min_self, if_neg hle]
      rfl
    | external chunkIds len size =>
      obtain ⟨-, hchunks⟩ := h
      simp only [max_eq_left (Nat.succ_le_of_lt hchunks.pos)]
      exact hchunks.readChunks_eq (min_le_right _ _) (by omega)

lemma getAddressIndexListRange_eq {stateAt : StateAt H} {kind : AddressIndexListKind}
    {address : Bytes} {l : List ℕ}
    (h : (codec.state (p.row stateAt kind address)).Represents (p.chunks.read kind) l)
    (start stop : ℕ) :
    getAddressIndexListRange codec p stateAt kind address start stop = window l start stop := by
  rw [getAddressIndexListRange]
  split_ifs with hle
  · rw [window_eq_nil hle]
  · rw [StateCodec.state] at h
    cases hrow : (p.row stateAt kind address).bind codec.decode with
    | none =>
      rw [hrow] at h
      obtain rfl : [] = l := h
      simp [window]
    | some state =>
      rw [hrow] at h
      exact addressIndexRange_eq h start stop

lemma appendAddressIndexLists_eq {chunkSize : ℕ}
    {appends : List ((AddressIndexListKind × Bytes) × List ℕ)}
    {batch batch' : ChunkBatch (AddressIndexListKind × Bytes) AddressIndexListKind ℕ}
    (h : p.chunks.appendAll Prod.fst addressIndexInlineCap chunkSize
      (fun l => codec.state (p.row .latest l.1 l.2)) appends batch = .ok batch') :
    appendAddressIndexLists codec p chunkSize appends batch = .ok batch' := by
  induction appends generalizing batch with
  | nil => exact congrArg _ (Except.ok.inj h)
  | cons a appends ih =>
    obtain ⟨⟨kind, address⟩, values⟩ := a
    rw [ChunkStore.appendAll] at h
    rw [appendAddressIndexLists, appendAddressIndexValues]
    cases happend : batch.append Prod.fst addressIndexInlineCap chunkSize (p.chunks.read kind)
      (codec.state (p.row .latest kind address)) (kind, address) values with
    | error e => simp [happend] at h
    | ok r =>
      simp only [happend] at h ⊢
      exact ih h

end Spec

end Espo.Essentials
