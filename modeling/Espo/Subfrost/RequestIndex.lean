import Espo.Lib.Positions
import Espo.Subfrost.Requests

/-!
# The rows of the unwrap requests

All rows are determined by the list of all requests: an address list is a sublist of it, and a pending row
gives the positions of the requests that wait for an outpoint. Indexing a block fulfils the requests
whose outpoint it spends and appends its own, so the rows after it are those of the longer list.

The lists of addresses go by the first 65535 bytes of a script, while a block counts its requests by the
whole script.
-/

namespace Espo.Subfrost
open Lib Alkanes Essentials List Option

variable {T : Type} [DecidableEq T]

/-! ## The rows of a list of requests -/

section Rows

/-- Is a request listed under this address? -/
def UnwrapRequest.listedUnder (spk : Spk) (r : UnwrapRequest T) : Bool := pushSpk r.addressSpk = spk

/-- Does a request wait for this outpoint? -/
def UnwrapRequest.waitsFor (o : T × ℕ) (r : UnwrapRequest T) : Bool :=
  r.outpoint = o ∧ r.fulfillmentTx = none

open UnwrapRequest (listedUnder waitsFor)

/-- The position of a request in the list of its address. -/
def addressPosition (requests : List (UnwrapRequest T)) (i : ℕ) (r : UnwrapRequest T) : ℕ :=
  (requests.take i).countP (listedUnder (pushSpk r.addressSpk))

/-- The positions of the requests that wait for an outpoint. -/
def refsFor (requests : List (UnwrapRequest T)) (o : T × ℕ) : List UnwrapRequestListRef :=
  (requests.zipIdx.filter fun e => e.1.waitsFor o).map fun e =>
    ⟨e.2, e.1.addressSpk, addressPosition requests e.2 e.1⟩

/-- The rows that stand for a list of requests. -/
def requestRows (requests : List (UnwrapRequest T)) : UnwrapKey T → Option (UnwrapValue T)
  | .allLength => if requests = [] then none else some (.length requests.length)
  | .allItem i => (requests[i]?).map .request
  | .addressLength spk =>
    let listed := requests.filter (listedUnder spk)
    if listed = [] then none else some (.length listed.length)
  | .addressItem spk i => ((requests.filter (listedUnder spk))[i]?).map .request
  | .pending o => if refsFor requests o = [] then none else some (.refs (refsFor requests o))

/-- The store holds a list of requests. -/
def UnwrapStore.Holds (s : UnwrapStore T) (requests : List (UnwrapRequest T)) : Prop :=
  ∀ key, s.rows.get key = requestRows requests key

lemma UnwrapStore.holds_empty : (UnwrapStore.empty : UnwrapStore T).Holds [] := by
  intro key
  cases key <;> rfl

variable {s : UnwrapStore T} {requests : List (UnwrapRequest T)}

namespace UnwrapStore.Holds
variable (h : s.Holds requests)
include h

lemma readLen_all : s.readLen .allLength = requests.length := by
  simp only [readLen, h .allLength, requestRows]
  split_ifs with hnil
  · rw [hnil]
    rfl
  · rfl

lemma readLen_address (spk : Spk) :
    s.readLen (.addressLength spk) = (requests.filter (listedUnder spk)).length := by
  simp only [readLen, h (.addressLength spk), requestRows]
  split_ifs with hnil
  · rw [hnil]
    rfl
  · rfl

lemma readRequest_all (i : ℕ) : s.readRequest (.allItem i) = requests[i]? := by
  simp only [readRequest, h (.allItem i), requestRows]
  cases requests[i]? <;> rfl

lemma readRequest_address (spk : Spk) (i : ℕ) :
    s.readRequest (.addressItem spk i) = (requests.filter (listedUnder spk))[i]? := by
  simp only [readRequest, h (.addressItem spk i), requestRows]
  cases (requests.filter (listedUnder spk))[i]? <;> rfl

lemma readRefs (o : T × ℕ) :
    s.readRefs o = if refsFor requests o = [] then none else some (refsFor requests o) := by
  simp only [UnwrapStore.readRefs, h (.pending o), requestRows]
  split_ifs <;> rfl

lemma readRefs_getD (o : T × ℕ) :
    (s.readRefs o).getD [] = refsFor requests o := by
  rw [h.readRefs]
  split_ifs with hnil
  · rw [hnil]
    rfl
  · rfl

lemma allRequests : s.allRequests = requests := by
  unfold UnwrapStore.allRequests readUnwrapRequestListAll
  rw [h.readLen_all]
  simp only [h.readRequest_all]
  exact filterMap_getElem?_range requests

lemma addressRequests (spk : Spk) :
    s.addressRequests spk = requests.filter (listedUnder (pushSpk spk)) := by
  unfold UnwrapStore.addressRequests readUnwrapRequestListAll addressLengthKey addressItemKey
  rw [h.readLen_address]
  simp only [h.readRequest_address]
  exact filterMap_getElem?_range _

end UnwrapStore.Holds

lemma mem_refsFor {o : T × ℕ} {ref : UnwrapRequestListRef} :
    ref ∈ refsFor requests o ↔ ∃ i r, requests[i]? = some r ∧ r.waitsFor o = true ∧
      ref = ⟨i, r.addressSpk, addressPosition requests i r⟩ := by
  unfold refsFor
  simp only [List.mem_map, mem_filter, mem_zipIdx_iff_getElem?, Prod.exists]
  constructor
  · rintro ⟨r, i, ⟨hget, hwaits⟩, rfl⟩
    exact ⟨i, r, hget, hwaits, rfl⟩
  · rintro ⟨i, r, hget, hwaits, rfl⟩
    exact ⟨r, i, ⟨hget, hwaits⟩, rfl⟩

lemma refsFor_eq_nil {o : T × ℕ} :
    refsFor requests o = [] ↔ ∀ r ∈ requests, r.waitsFor o = false := by
  constructor
  · intro h r hr
    by_contra hwaits
    obtain ⟨i, hget⟩ := mem_iff_getElem?.1 hr
    have hmem := mem_refsFor.2 ⟨i, r, hget, by simpa using hwaits, rfl⟩
    rw [h] at hmem
    simp at hmem
  · intro h
    rw [eq_nil_iff_forall_not_mem]
    intro ref hmem
    obtain ⟨i, r, hget, hwaits, -⟩ := mem_refsFor.1 hmem
    rw [h r (mem_of_getElem? hget)] at hwaits
    exact Bool.noConfusion hwaits

lemma refsFor_concat (requests : List (UnwrapRequest T)) (r : UnwrapRequest T) (o : T × ℕ) :
    refsFor (requests ++ [r]) o = refsFor requests o ++ if r.waitsFor o then
      [⟨requests.length, r.addressSpk,
        (requests.filter (listedUnder (pushSpk r.addressSpk))).length⟩] else [] := by
  have hposition : ∀ e ∈ requests.zipIdx, addressPosition (requests ++ [r]) e.2 e.1
      = addressPosition requests e.2 e.1 := by
    intro e he
    have hget := mem_zipIdx_iff_getElem?.1 he
    unfold addressPosition
    rw [take_append_of_getElem? hget]
  unfold refsFor
  rw [zipIdx_append, filter_append, map_append]
  congr 1
  · apply map_congr_left
    intro e he
    rw [hposition e (mem_of_mem_filter he)]
  · unfold addressPosition
    by_cases hwaits : r.waitsFor o = true <;>
      simp [hwaits, countP_eq_length_filter]

lemma refsFor_append_of_none {o : T × ℕ} {more : List (UnwrapRequest T)}
    (h : ∀ r ∈ more, r.waitsFor o = false) : refsFor (requests ++ more) o = refsFor requests o := by
  induction more using List.reverseRecOn with
  | nil => rw [append_nil]
  | append_singleton more r ih =>
    rw [← append_assoc, refsFor_concat, ih fun r' hr' => h r' (mem_append_left _ hr'),
      h r (by simp)]
    simp

/-- Is this the key of an item, behind the items of these requests? -/
def NewItem (settled : List (UnwrapRequest T)) : UnwrapKey T → Prop
  | .allItem i => settled.length ≤ i
  | .addressItem spk i => (settled.filter (listedUnder spk)).length ≤ i
  | _ => False

lemma requestRows_append {key : UnwrapKey T} {v : UnwrapValue T} (hitem : NewItem [] key)
    (h : requestRows requests key = some v) (more : List (UnwrapRequest T)) :
    requestRows (requests ++ more) key = some v := by
  have happend : ∀ {l : List (UnwrapRequest T)} {i : ℕ}, (l[i]?).map UnwrapValue.request = some v →
      ∀ more, ((l ++ more)[i]?).map UnwrapValue.request = some v := by
    intro l i h more
    obtain ⟨r, hget, rfl⟩ := map_eq_some_iff.1 h
    rw [getElem?_append_of_some hget, map_some]
  cases key with
  | allItem i => exact happend h more
  | addressItem spk i =>
    simp only [requestRows, filter_append] at h ⊢
    exact happend h _
  | _ => cases hitem

end Rows

/-! ## Fulfilment -/

section Fulfilment

variable (spends : List ((T × ℕ) × T))

/-- Every outpoint is spent at most once. -/
def SpentOnce : Prop := (spends.map Prod.fst).Nodup

lemma fulfillmentByOutpoint_eq_some {spends : List ((T × ℕ) × T)} (honce : SpentOnce spends) {o : T × ℕ}
    {t : T} : (fulfillmentByOutpoint spends).get o = some t ↔ (o, t) ∈ spends := by
  unfold fulfillmentByOutpoint
  constructor
  · intro h
    by_cases hmem : o ∈ spends.map Prod.fst
    · obtain ⟨t', ht', hget⟩ := Table.exists_get_putAll hmem
      rwa [Option.some.inj (h.symm.trans (hget _))]
    · rw [Table.get_putAll_of_notMem _ hmem] at h
      simp at h
  · exact Table.get_putAll_of_nodup ∅ honce

/-- A request after a block with these spends. -/
def UnwrapRequest.settle (r : UnwrapRequest T) : UnwrapRequest T :=
  { r with fulfillmentTx := r.fulfillmentTx.or ((fulfillmentByOutpoint spends).get r.outpoint) }

open UnwrapRequest (listedUnder waitsFor settle)

@[simp]
lemma UnwrapRequest.settle_outpoint (r : UnwrapRequest T) : (r.settle spends).outpoint = r.outpoint := rfl

lemma UnwrapRequest.settle_of_isSome {r : UnwrapRequest T} (h : r.fulfillmentTx.isSome = true) :
    r.settle spends = r := by
  obtain ⟨t, ht⟩ := isSome_iff_exists.1 h
  cases r
  simp_all [settle]

lemma UnwrapRequest.settle_of_unspent {r : UnwrapRequest T}
    (h : (fulfillmentByOutpoint spends).get r.outpoint = none) : r.settle spends = r := by
  simp_all [settle]

variable {requests : List (UnwrapRequest T)}

lemma filter_listedUnder_map_settle (requests : List (UnwrapRequest T)) (spk : Spk) :
    (requests.map (settle spends)).filter (listedUnder spk)
      = (requests.filter (listedUnder spk)).map (settle spends) :=
  List.filter_map

lemma addressPosition_map_settle (requests : List (UnwrapRequest T)) (i : ℕ) (r : UnwrapRequest T) :
    addressPosition (requests.map (settle spends)) i r = addressPosition requests i r := by
  unfold addressPosition
  rw [← map_take, countP_map]
  rfl

lemma refsFor_map_settle_of_spent {o : T × ℕ}
    (hspent : (fulfillmentByOutpoint spends).get o ≠ none) :
    refsFor (requests.map (settle spends)) o = [] := by
  rw [refsFor_eq_nil]
  intro r hr
  obtain ⟨r₀, -, rfl⟩ := List.mem_map.1 hr
  by_contra hwaits
  simp only [waitsFor, settle, Bool.not_eq_false, decide_eq_true_eq,
    or_eq_none_iff] at hwaits
  obtain ⟨hout, -, hget⟩ := hwaits
  exact hspent (hout ▸ hget)

lemma refsFor_map_settle_of_unspent {o : T × ℕ}
    (hunspent : (fulfillmentByOutpoint spends).get o = none) :
    refsFor (requests.map (settle spends)) o = refsFor requests o := by
  have hwaits : ∀ r : UnwrapRequest T, (r.settle spends).waitsFor o = r.waitsFor o := by
    intro r
    by_cases hout : r.outpoint = o
    · rw [UnwrapRequest.settle_of_unspent spends (hout.symm ▸ hunspent)]
    · simp [waitsFor, hout]
  unfold refsFor
  rw [zipIdx_map, List.filter_map, List.map_map]
  have hfilter : (fun e : UnwrapRequest T × ℕ => e.1.waitsFor o) ∘ Prod.map (settle spends) id
      = fun e => e.1.waitsFor o := funext fun e => hwaits e.1
  rw [hfilter]
  apply map_congr_left
  intro e _
  simp only [Function.comp_apply]
  rw [addressPosition_map_settle]
  rfl

variable {spends} {s : UnwrapStore T} (h : s.Holds requests) (honce : SpentOnce spends)
include h honce

lemma mem_fulfillmentUpdates {e : UnwrapKey T × UnwrapValue T} :
    e ∈ (buildUnwrapRequestFulfillmentUpdates s spends).1 ↔ ∃ i r, requests[i]? = some r ∧
      r.fulfillmentTx = none ∧ (fulfillmentByOutpoint spends).get r.outpoint ≠ none ∧
      (e = (.allItem i, .request (r.settle spends)) ∨
        e = (addressItemKey r.addressSpk (addressPosition requests i r), .request (r.settle spends))) := by
  have hsettle : ∀ {r : UnwrapRequest T} {t : T}, r.fulfillmentTx = none → (r.outpoint, t) ∈ spends →
      r.settle spends = { r with fulfillmentTx := some t } := by
    intro r t hnone hmem
    unfold settle
    rw [(fulfillmentByOutpoint_eq_some honce).2 hmem, hnone]
    rfl
  unfold buildUnwrapRequestFulfillmentUpdates
  simp only [mem_flatMap, h.readRefs_getD, mem_refsFor]
  constructor
  · rintro ⟨⟨o, t⟩, hspend, ref, ⟨i, r, hget, hwaits, rfl⟩, he⟩
    obtain ⟨rfl, hnone⟩ : r.outpoint = o ∧ r.fulfillmentTx = none := by
      simpa [waitsFor] using hwaits
    simp only [fulfillmentPuts, h.readRequest_all, hget, hnone, isSome_none, Bool.false_eq_true,
      if_false, mem_cons, not_mem_nil, or_false] at he
    refine ⟨i, r, hget, hnone, ?_, ?_⟩
    · rw [(fulfillmentByOutpoint_eq_some honce).2 hspend]
      simp
    · rw [hsettle hnone hspend]
      exact he
  · rintro ⟨i, r, hget, hnone, hspent, he⟩
    obtain ⟨t, ht⟩ := ne_none_iff_exists'.1 hspent
    have hspend := (fulfillmentByOutpoint_eq_some honce).1 ht
    refine ⟨(r.outpoint, t), hspend, _, ⟨i, r, hget, ?_, rfl⟩, ?_⟩
    · simp [waitsFor, hnone]
    · simp only [fulfillmentPuts, h.readRequest_all, hget, hnone, isSome_none, Bool.false_eq_true,
        if_false, mem_cons, not_mem_nil, or_false]
      rw [← hsettle hnone hspend]
      exact he

lemma mem_fulfillmentDeletes {key : UnwrapKey T} :
    key ∈ (buildUnwrapRequestFulfillmentUpdates s spends).2 ↔ ∃ o, key = .pending o ∧
      (fulfillmentByOutpoint spends).get o ≠ none ∧ refsFor requests o ≠ [] := by
  unfold buildUnwrapRequestFulfillmentUpdates
  simp only [List.mem_map, mem_filter, h.readRefs]
  constructor
  · rintro ⟨⟨o, t⟩, ⟨hspend, hrefs⟩, rfl⟩
    refine ⟨o, rfl, ?_, ?_⟩
    · rw [(fulfillmentByOutpoint_eq_some honce).2 hspend]
      simp
    · intro hnil
      rw [if_pos hnil] at hrefs
      exact Bool.noConfusion hrefs
  · rintro ⟨o, rfl, hspent, hrefs⟩
    obtain ⟨t, ht⟩ := ne_none_iff_exists'.1 hspent
    refine ⟨(o, t), ⟨(fulfillmentByOutpoint_eq_some honce).1 ht, ?_⟩, rfl⟩
    rw [if_neg hrefs]
    rfl

end Fulfilment

open UnwrapRequest (listedUnder waitsFor settle)

/-! ## Appends -/

section Appends
variable {s : UnwrapStore T} {old settled : List (UnwrapRequest T)}

/-- No two of the requests have scripts that differ only behind what a key takes of them. -/
def DistinctAddresses (requests : List (UnwrapRequest T)) : Prop :=
  ∀ r ∈ requests, ∀ r' ∈ requests, pushSpk r.addressSpk = pushSpk r'.addressSpk →
    r.addressSpk = r'.addressSpk

/-- The loop of `build_unwrap_request_appends` after some requests: `settled` are the requests before the
block. -/
structure AppendInv (settled done : List (UnwrapRequest T)) (a : RequestAppends T) : Prop where
  allLen : a.allLen = (settled ++ done).length
  addressLens : ∀ spk, a.addressLens.lookup spk =
    if spk ∈ done.map UnwrapRequest.addressSpk then
      some ((settled ++ done).filter (listedUnder (pushSpk spk))).length else none
  pendingRefs : ∀ o, a.pendingRefsByKey.lookup o =
    if ∃ r ∈ done, r.waitsFor o = true then some (refsFor (settled ++ done) o) else none
  puts : ∀ key v, (key, v) ∈ a.puts ↔ NewItem settled key ∧ requestRows (settled ++ done) key = some v

variable {a : RequestAppends T} {v : UnwrapValue T} {done : List (UnwrapRequest T)}
  {r : UnwrapRequest T} {key : UnwrapKey T}

lemma not_newItem (hrow : requestRows settled key = some v) : ¬ NewItem settled key := by
  have hitem : ∀ {l : List (UnwrapRequest T)} {i : ℕ}, (l[i]?).map UnwrapValue.request = some v →
      ¬ l.length ≤ i := by
    intro l i h hle
    rw [getElem?_eq_none hle] at h
    simp at h
  cases key with
  | allItem i => exact hitem hrow
  | addressItem spk i => exact hitem hrow
  | _ => exact id

lemma AppendInv.init (settled : List (UnwrapRequest T)) :
    AppendInv settled [] ⟨settled.length, ∅, ∅, []⟩ where
  allLen := by simp
  addressLens := by simp
  pendingRefs := by simp
  puts key v := by
    rw [append_nil]
    exact ⟨nofun, fun h => absurd h.1 (not_newItem h.2)⟩

lemma requestRows_concat {requests : List (UnwrapRequest T)} (hitem : NewItem settled key) :
    requestRows (requests ++ [r]) key = some v ↔ requestRows requests key = some v ∨
      (key = .allItem requests.length ∨ key = addressItemKey r.addressSpk
        (requests.filter (listedUnder (pushSpk r.addressSpk))).length) ∧ v = .request r := by
  have hconcat : ∀ {l : List (UnwrapRequest T)} {i : ℕ},
      ((l ++ [r])[i]?).map UnwrapValue.request = some v ↔
        (l[i]?).map UnwrapValue.request = some v ∨ i = l.length ∧ v = .request r := by
    intro l i
    simp only [map_eq_some_iff, getElem?_concat_eq_some]
    constructor
    · rintro ⟨r', h | ⟨hi, rfl⟩, rfl⟩
      · exact .inl ⟨r', h, rfl⟩
      · exact .inr ⟨hi, rfl⟩
    · rintro (⟨r', h, rfl⟩ | ⟨hi, rfl⟩)
      · exact ⟨r', .inl h, rfl⟩
      · exact ⟨r, .inr ⟨hi, rfl⟩, rfl⟩
  cases key with
  | allItem i => simp [requestRows, addressItemKey, hconcat]
  | addressItem spk i =>
    simp only [requestRows, addressItemKey, filter_append]
    by_cases hlisted : pushSpk r.addressSpk = spk
    · subst hlisted
      have hfilter : [r].filter (listedUnder (pushSpk r.addressSpk)) = [r] := by simp [listedUnder]
      rw [hfilter, hconcat]
      simp
    · have hfilter : [r].filter (listedUnder spk) = [] := by simp [listedUnder, hlisted]
      rw [hfilter]
      simp [Ne.symm hlisted]
  | _ => cases hitem

section
variable (h : AppendInv settled done a)
  (hlen : ∀ spk, s.readLen (.addressLength spk) = (settled.filter (listedUnder spk)).length)
include h hlen

lemma AppendInv.addressIndex_eq {spk : Spk}
    (hspk : ∀ r ∈ done, pushSpk r.addressSpk = pushSpk spk → r.addressSpk = spk) :
    (a.addressLens.lookup spk).getD (s.readLen (addressLengthKey spk))
      = ((settled ++ done).filter (listedUnder (pushSpk spk))).length := by
  rw [h.addressLens]
  split_ifs with hmem
  · rfl
  · -- no request of the block so far is in this list
    have hnone : done.filter (listedUnder (pushSpk spk)) = [] := by
      rw [filter_eq_nil_iff]
      intro r hr hlisted
      have heq := hspk r hr (by simpa [listedUnder] using hlisted)
      exact hmem (heq ▸ List.mem_map_of_mem hr)
    rw [getD_none, addressLengthKey, hlen, filter_append, hnone, append_nil]

omit hlen in
lemma AppendInv.refs_eq {o : T × ℕ}
    (hrefs : (s.readRefs o).getD [] = refsFor settled o) :
    (a.pendingRefsByKey.lookup o).getD ((s.readRefs o).getD []) = refsFor (settled ++ done) o := by
  rw [h.pendingRefs]
  split_ifs with hex
  · rfl
  · rw [getD_none, hrefs, refsFor_append_of_none]
    intro r hr
    by_contra hwaits
    exact hex ⟨r, hr, by simpa using hwaits⟩

lemma AppendInv.step
    (hspk : ∀ r' ∈ done, pushSpk r'.addressSpk = pushSpk r.addressSpk → r'.addressSpk = r.addressSpk)
    (hrefs : r.fulfillmentTx = none → (s.readRefs r.outpoint).getD [] = refsFor settled r.outpoint) :
    AppendInv settled (done ++ [r]) (a.step s r) := by
  have hindex := h.addressIndex_eq hlen hspk
  have hle : NewItem settled (.allItem (settled ++ done).length) := by simp [NewItem]
  have hleAddress : ∀ spk, NewItem settled
      (.addressItem spk ((settled ++ done).filter (listedUnder spk)).length) := by simp [NewItem]
  unfold RequestAppends.step
  simp only [hindex]
  constructor
  · simp only [h.allLen, length_append, length_cons, length_nil]
    omega
  · intro spk
    by_cases heq : spk = r.addressSpk
    · subst heq
      have hself : [r].filter (listedUnder (pushSpk r.addressSpk)) = [r] := by
        simp [listedUnder]
      rw [AList.lookup_insert, if_pos (by simp), ← append_assoc,
        filter_append (settled ++ done), hself, length_append]
      rfl
    · rw [AList.lookup_insert_ne heq, h.addressLens, map_append, ← append_assoc,
        filter_append (settled ++ done)]
      by_cases hmem : spk ∈ done.map UnwrapRequest.addressSpk
      · have hother : [r].filter (listedUnder (pushSpk spk)) = [] := by
          obtain ⟨r', hr', rfl⟩ := List.mem_map.1 hmem
          have hne : pushSpk r.addressSpk ≠ pushSpk r'.addressSpk := fun hsame =>
            heq (hspk r' hr' hsame.symm)
          simp [listedUnder, hne]
        rw [if_pos hmem, if_pos (mem_append_left _ hmem), hother, append_nil]
      · rw [if_neg hmem, if_neg (by simp [hmem, heq])]
  · intro o
    rw [← append_assoc, refsFor_concat]
    by_cases hwaits : r.waitsFor o = true
    · obtain ⟨rfl, hnone⟩ : r.outpoint = o ∧ r.fulfillmentTx = none := by
        simpa [waitsFor] using hwaits
      rw [if_pos (by rw [hnone]; rfl), AList.lookup_insert, if_pos ⟨r, by simp, hwaits⟩, if_pos hwaits,
        h.refs_eq (hrefs hnone), h.allLen]
    · have hsame : (∃ r' ∈ done ++ [r], r'.waitsFor o = true) ↔ ∃ r' ∈ done, r'.waitsFor o = true := by
        simp [hwaits]
      have hlookup : (if r.fulfillmentTx.isNone = true then
          a.pendingRefsByKey.insert r.outpoint
            ((a.pendingRefsByKey.lookup r.outpoint).getD ((s.readRefs r.outpoint).getD []) ++
              [⟨a.allLen, r.addressSpk, ((settled ++ done).filter
                (listedUnder (pushSpk r.addressSpk))).length⟩])
          else a.pendingRefsByKey).lookup o = a.pendingRefsByKey.lookup o := by
        split_ifs with hnone
        · have hne : o ≠ r.outpoint := by
            rintro rfl
            exact hwaits (by simpa [waitsFor] using hnone)
          exact AList.lookup_insert_ne hne
        · rfl
      rw [hlookup, h.pendingRefs, if_neg hwaits, append_nil]
      simp only [hsame]
  · intro key v
    rw [← append_assoc, mem_append, h.puts, h.allLen]
    simp only [mem_cons, not_mem_nil, or_false, Prod.mk.injEq, ← or_and_right]
    constructor
    · rintro (⟨hnew, hrow⟩ | ⟨rfl | rfl, rfl⟩)
      · exact ⟨hnew, (requestRows_concat hnew).2 (.inl hrow)⟩
      · exact ⟨hle, (requestRows_concat hle).2 (.inr ⟨.inl rfl, rfl⟩)⟩
      · exact ⟨hleAddress _, (requestRows_concat (hleAddress _)).2 (.inr ⟨.inr rfl, rfl⟩)⟩
    · rintro ⟨hnew, hrow⟩
      exact ((requestRows_concat hnew).1 hrow).imp_left fun hold => ⟨hnew, hold⟩

omit h in
lemma AppendInv.run {requests : List (UnwrapRequest T)} (hdistinct : DistinctAddresses requests)
    (hrefs : ∀ r ∈ requests, r.fulfillmentTx = none →
      (s.readRefs r.outpoint).getD [] = refsFor settled r.outpoint) :
    AppendInv settled requests
      (requests.foldl (RequestAppends.step s) ⟨settled.length, ∅, ∅, []⟩) := by
  refine foldl_invariant (P := AppendInv settled) (.init settled) ?_
  intro done r rest a hsplit h
  have hr : r ∈ requests := by rw [hsplit]; simp
  refine h.step hlen (fun r' hr' => hdistinct r' ?_ r hr) (hrefs r hr)
  rw [hsplit]
  exact mem_append_left _ hr'

end

lemma mem_entries_iff_lookup {K V : Type*} [DecidableEq K] {m : AList fun _ : K => V} {k : K} {v : V} :
    (⟨k, v⟩ : Sigma fun _ : K => V) ∈ m.entries ↔ m.lookup k = some v :=
  AList.mem_lookup_iff.symm

/-- Is the row of a key new when requests are appended? -/
def NewRow (settled requests : List (UnwrapRequest T)) : UnwrapKey T → Prop
  | .allLength => requests ≠ []
  | .allItem i => settled.length ≤ i
  | .addressLength spk => ∃ r ∈ requests, r.listedUnder spk = true
  | .addressItem spk i => (settled.filter (listedUnder spk)).length ≤ i
  | .pending o => ∃ r ∈ requests, r.waitsFor o = true

variable {requests : List (UnwrapRequest T)}

lemma mem_requestAppends (order : HashOrder)
    (ha : requests.foldl (RequestAppends.step s) ⟨s.readLen .allLength, ∅, ∅, []⟩ = a)
    (h : AppendInv settled requests a) :
    (key, v) ∈ buildUnwrapRequestAppends order s requests ↔
      NewRow settled requests key ∧ requestRows (settled ++ requests) key = some v := by
  by_cases hnil : requests = []
  · subst hnil
    rw [append_nil]
    constructor
    · intro hmem
      exact absurd hmem (by simp [buildUnwrapRequestAppends])
    · rintro ⟨hnew, hrow⟩
      refine absurd ?_ (not_newItem hrow)
      cases key <;> simp_all [NewRow, NewItem]
  have hempty : requests.isEmpty = false := by simpa using hnil
  have hne : settled ++ requests ≠ [] := by simp [hnil]
  unfold buildUnwrapRequestAppends
  simp only [hempty, Bool.false_eq_true, if_false, ha, mem_append, List.mem_map, (order.perm _).mem_iff,
    mem_singleton, Sigma.exists, mem_entries_iff_lookup, Prod.mk.injEq, addressLengthKey]
  cases key with
  | allLength => simp [NewRow, requestRows, h.puts, hnil, h.allLen, eq_comm]
  | allItem i => simp [NewRow, NewItem, h.puts]
  | addressItem spk i => simp [NewRow, NewItem, h.puts]
  | addressLength spk =>
    have hrow : ∀ r ∈ requests, r.listedUnder spk = true →
        requestRows (settled ++ requests) (.addressLength spk)
          = some (.length ((settled ++ requests).filter (listedUnder spk)).length) := by
      intro r hr hlisted
      have hfilter : r ∈ (settled ++ requests).filter (listedUnder spk) :=
        mem_filter.2 ⟨mem_append_right _ hr, hlisted⟩
      simp only [requestRows]
      rw [if_neg (ne_nil_of_mem hfilter)]
    simp only [h.puts, NewItem, false_or, reduceCtorEq, false_and, and_false, UnwrapKey.addressLength.injEq,
      exists_false, or_false, h.addressLens]
    constructor
    · rintro ⟨spk', n, hlookup, rfl, rfl⟩
      split_ifs at hlookup with hmem
      obtain ⟨r, hr, rfl⟩ := List.mem_map.1 hmem
      have hlisted : r.listedUnder (pushSpk r.addressSpk) = true := by simp [listedUnder]
      exact ⟨⟨r, hr, hlisted⟩, by rw [hrow r hr hlisted, Option.some.inj hlookup]⟩
    · rintro ⟨⟨r, hr, hlisted⟩, hv⟩
      rw [hrow r hr hlisted] at hv
      obtain rfl : pushSpk r.addressSpk = spk := by simpa [listedUnder] using hlisted
      exact ⟨r.addressSpk, _, if_pos (List.mem_map_of_mem hr), rfl, Option.some.inj hv⟩
  | pending o =>
    have hrow : (∃ r ∈ requests, r.waitsFor o = true) → requestRows (settled ++ requests) (.pending o)
        = some (.refs (refsFor (settled ++ requests) o)) := by
      rintro ⟨r, hr, hwaits⟩
      have hne' : refsFor (settled ++ requests) o ≠ [] := by
        intro hnil'
        rw [refsFor_eq_nil.1 hnil' r (mem_append_right _ hr)] at hwaits
        exact Bool.noConfusion hwaits
      simp only [requestRows]
      rw [if_neg hne']
    simp only [h.puts, NewItem, false_or, reduceCtorEq, false_and, and_false, UnwrapKey.pending.injEq,
      exists_false, h.pendingRefs]
    constructor
    · rintro ⟨o', refs, hlookup, rfl, rfl⟩
      split_ifs at hlookup with hwaits
      exact ⟨hwaits, by rw [hrow hwaits, Option.some.inj hlookup]⟩
    · rintro ⟨hwaits, hv⟩
      rw [hrow hwaits] at hv
      exact ⟨o, _, if_pos hwaits, rfl, Option.some.inj hv⟩

end Appends

/-! ## Blocks -/

section Blocks
variable {s : UnwrapStore T} {requests new : List (UnwrapRequest T)} {spends : List ((T × ℕ) × T)}
  {r : UnwrapRequest T} {block : SubfrostBlock T} {key : UnwrapKey T}

lemma requestRows_append_of_not_newRow {settled : List (UnwrapRequest T)}
    (hnew : NewRow settled new key → requestRows (settled ++ new) key = none) :
    requestRows (settled ++ new) key = requestRows settled key := by
  have hitem : ∀ {l l' : List (UnwrapRequest T)} {i : ℕ},
      (l.length ≤ i → ((l ++ l')[i]?).map UnwrapValue.request = none) →
      ((l ++ l')[i]?).map UnwrapValue.request = (l[i]?).map UnwrapValue.request := by
    intro l l' i h
    by_cases hi : l.length ≤ i
    · rw [h hi, getElem?_eq_none hi]
      rfl
    · rw [getElem?_append_left (by omega)]
  cases key with
  | allLength =>
    by_cases hnil : new = []
    · rw [hnil, append_nil]
    · have hrow := hnew hnil
      simp [requestRows, hnil] at hrow
  | allItem i => exact hitem hnew
  | addressItem spk i =>
    simp only [requestRows, filter_append] at hnew ⊢
    exact hitem hnew
  | addressLength spk =>
    have hnone : new.filter (listedUnder spk) = [] := by
      rw [filter_eq_nil_iff]
      intro r hr hlisted
      have hrow := hnew ⟨r, hr, hlisted⟩
      simp only [requestRows, filter_append, ite_eq_left_iff, reduceCtorEq, imp_false, not_not,
        append_eq_nil_iff, filter_eq_nil_iff] at hrow
      exact hrow.2 r hr hlisted
    simp only [requestRows, filter_append, hnone, append_nil]
  | pending o =>
    have hnone : ∀ r ∈ new, r.waitsFor o = false := by
      intro r hr
      by_contra hwaits
      have hrow := hnew ⟨r, hr, by simpa using hwaits⟩
      simp only [requestRows, ite_eq_left_iff, reduceCtorEq, imp_false, not_not] at hrow
      exact hwaits (refsFor_eq_nil.1 hrow r (mem_append_right _ hr))
    simp only [requestRows, refsFor_append_of_none hnone]

section
variable (h : s.Holds requests) (honce : SpentOnce spends)
include h honce

lemma updated_item {e : UnwrapKey T × UnwrapValue T}
    (he : e ∈ (buildUnwrapRequestFulfillmentUpdates s spends).1) :
    requestRows (requests.map (settle spends) ++ new) e.1 = some e.2 := by
  obtain ⟨i, r, hget, -, -, rfl | rfl⟩ := (mem_fulfillmentUpdates h honce).1 he
  · apply requestRows_append (Nat.zero_le _)
    simp [requestRows, hget]
  · apply requestRows_append (Nat.zero_le _)
    have hposition := getElem?_filter_countP (p := listedUnder (pushSpk r.addressSpk)) hget
      (by simp [listedUnder])
    simp only [requestRows, addressItemKey, filter_listedUnder_map_settle, getElem?_map]
    rw [addressPosition, hposition]
    rfl

lemma settle_of_notMem_updates {i : ℕ} (hget : requests[i]? = some r)
    (hkey : key = .allItem i ∨ key = addressItemKey r.addressSpk (addressPosition requests i r))
    (hput : key ∉ (buildUnwrapRequestFulfillmentUpdates s spends).1.map Prod.fst) :
    r.settle spends = r := by
  by_contra hne
  have hnone : r.fulfillmentTx = none := by
    by_contra hsome
    exact hne (r.settle_of_isSome spends (isSome_iff_ne_none.2 hsome))
  have hspent : (fulfillmentByOutpoint spends).get r.outpoint ≠ none := fun hunspent =>
    hne (UnwrapRequest.settle_of_unspent spends hunspent)
  have hmem : (key, UnwrapValue.request (r.settle spends)) ∈ (buildUnwrapRequestFulfillmentUpdates s spends).1 := by
    refine (mem_fulfillmentUpdates h honce).2 ⟨i, r, hget, hnone, hspent, ?_⟩
    rcases hkey with rfl | rfl
    · exact .inl rfl
    · exact .inr rfl
  exact hput (List.mem_map_of_mem hmem)

lemma requestRows_map_settle_of_notMem
    (hput : key ∉ (buildUnwrapRequestFulfillmentUpdates s spends).1.map Prod.fst)
    (hpending : ∀ o, key ≠ .pending o) :
    requestRows (requests.map (settle spends)) key = requestRows requests key := by
  cases key with
  | allLength => simp [requestRows]
  | addressLength spk => simp [requestRows, filter_listedUnder_map_settle]
  | pending o => exact absurd rfl (hpending o)
  | allItem i =>
    simp only [requestRows, getElem?_map]
    cases hget : requests[i]? with
    | none => rfl
    | some r =>
      have hsettled := settle_of_notMem_updates h honce hget (.inl rfl) hput
      rw [map_some, hsettled]
  | addressItem spk j =>
    simp only [requestRows, filter_listedUnder_map_settle, getElem?_map]
    cases hget : (requests.filter (listedUnder spk))[j]? with
    | none => rfl
    | some r =>
      obtain ⟨i, hi, hlisted, rfl⟩ := exists_getElem?_of_filter hget
      obtain rfl : pushSpk r.addressSpk = spk := by simpa [listedUnder] using hlisted
      have hsettled := settle_of_notMem_updates h honce hi (.inr rfl) hput
      rw [map_some, hsettled]

lemma requestRows_pending (o : T × ℕ) :
    requestRows (requests.map (settle spends)) (.pending o) =
      if UnwrapKey.pending o ∈ (buildUnwrapRequestFulfillmentUpdates s spends).2 then none
      else requestRows requests (.pending o) := by
  simp only [mem_fulfillmentDeletes h honce, requestRows, UnwrapKey.pending.injEq, exists_eq_left']
  by_cases hspent : (fulfillmentByOutpoint spends).get o = none
  · rw [refsFor_map_settle_of_unspent spends hspent]
    simp [hspent]
  · rw [refsFor_map_settle_of_spent spends hspent]
    by_cases hnil : refsFor requests o = [] <;> simp [hspent]

end

variable (bitcoin : BitcoinDecode) (order : HashOrder)

lemma unwrapRequest_eq_some {tx : SubfrostTx T} {pending : ParsedWrapInvoke} {ret : ReturnData}
    (h : unwrapRequest block tx pending ret = some r) :
    tx.txid = r.txid ∧ r.fulfillmentTx =
      (fulfillmentByOutpoint (collectUnwrapRequestSpends block.transactions)).get r.outpoint := by
  unfold unwrapRequest at h
  split_ifs at h
  simp only [bind_eq_some_iff, map_eq_some_iff] at h
  obtain ⟨amount, -, vout, -, rfl⟩ := h
  exact ⟨rfl, rfl⟩

lemma mem_requests_foldl {tx : SubfrostTx T} (events : List TraceEvent) (w : RequestWalk T)
    (hr : r ∈ (events.foldl (RequestWalk.step block tx) w).requests) :
    r ∈ w.requests ∨ ∃ pending ret, unwrapRequest block tx pending ret = some r := by
  revert hr
  refine foldlRecOn (motive := fun w' : RequestWalk T => r ∈ w'.requests → _) _ _ .inl fun w' ih ev _ hr => ?_
  cases ev with
  | opening inv => exact ih hr
  | leaf id => exact ih hr
  | closing ret =>
    simp only [RequestWalk.step, mem_append, Option.mem_toList, bind_eq_some_iff] at hr
    rcases hr with hold | ⟨pending, -, hnew⟩
    · exact ih hold
    · exact .inr ⟨pending, ret, hnew⟩

lemma mem_unwrapRequests (hr : r ∈ unwrapRequests bitcoin block) :
    (∃ tx ∈ block.transactions, tx.txid = r.txid) ∧ r.fulfillmentTx =
      (fulfillmentByOutpoint (collectUnwrapRequestSpends block.transactions)).get r.outpoint := by
  obtain ⟨tx, htx, hr⟩ := mem_flatMap.1 hr
  obtain ⟨trace, -, hr⟩ := mem_flatMap.1 hr
  split at hr
  · simp at hr
  · rcases mem_requests_foldl _ _ hr with hnil | ⟨pending, ret, hcall⟩
    · simp at hnil
    · exact ⟨⟨tx, htx, (unwrapRequest_eq_some hcall).1⟩, (unwrapRequest_eq_some hcall).2⟩

/-- A block settles the requests that are there and appends its own. -/
theorem UnwrapStore.Holds.indexBlock (h : s.Holds requests)
    (hheight : ¬ s.indexHeight.any fun prev => block.height ≤ prev)
    (honce : SpentOnce (collectUnwrapRequestSpends block.transactions))
    (hdistinct : DistinctAddresses (unwrapRequests bitcoin block)) :
    (indexBlock bitcoin order s block).Holds
      (requests.map (settle (collectUnwrapRequestSpends block.transactions))
        ++ unwrapRequests bitcoin block) := by
  generalize hspends : collectUnwrapRequestSpends block.transactions = spends at *
  have hlens : ∀ spk, s.readLen (.addressLength spk) =
      ((requests.map (settle spends)).filter (listedUnder spk)).length := by
    intro spk
    rw [h.readLen_address, filter_listedUnder_map_settle, length_map]
  have hrefs : ∀ r ∈ unwrapRequests bitcoin block, r.fulfillmentTx = none →
      (s.readRefs r.outpoint).getD [] = refsFor (requests.map (settle spends)) r.outpoint := by
    -- what the block itself spends is not waited for
    intro r hr hnone
    have hunspent : (fulfillmentByOutpoint spends).get r.outpoint = none := by
      rw [← hspends, ← (mem_unwrapRequests bitcoin hr).2, hnone]
    rw [h.readRefs_getD, refsFor_map_settle_of_unspent spends hunspent]
  have hinv := AppendInv.run hlens hdistinct hrefs
  rw [length_map, ← h.readLen_all] at hinv
  unfold Subfrost.indexBlock UnwrapStore.setBatch
  rw [if_neg hheight, hspends]
  dsimp only
  rw [writeBatch_dedupeOps]
  apply Table.get_writeBatch_eq
  · intro e he
    rcases mem_append.1 he with hupdate | happend
    · exact updated_item h honce hupdate
    · exact ((mem_requestAppends order rfl hinv).1 happend).2
  · intro key hkey
    rw [map_append, mem_append, not_or] at hkey
    rw [requestRows_append_of_not_newRow]
    · by_cases hpending : ∃ o, key = .pending o
      · obtain ⟨o, rfl⟩ := hpending
        rw [requestRows_pending h honce, h]
      · rw [requestRows_map_settle_of_notMem h honce hkey.1 (fun o ho => hpending ⟨o, ho⟩), h, if_neg]
        intro hdelete
        obtain ⟨o, ho, -⟩ := (mem_fulfillmentDeletes h honce).1 hdelete
        exact hpending ⟨o, ho⟩
    · intro hnew
      by_contra hrow
      obtain ⟨v, hv⟩ := ne_none_iff_exists'.1 hrow
      exact hkey.2 (List.mem_map_of_mem ((mem_requestAppends order rfl hinv).2 ⟨hnew, hv⟩))

end Blocks

end Espo.Subfrost
