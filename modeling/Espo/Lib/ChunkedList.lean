import Espo.Lib.Instances

/-!
# Lists kept in chunks

A list is kept inline while it is short, and then as a list of chunk ids with a length. Chunks live
in a store of their own that keeps one value for each id: an append rewrites the last chunk in place
and allocates new ids for what does not fit. The length cuts off what a rewritten chunk holds beyond
it, so a state stays readable when its last chunk is rewritten by a longer list, and an append to it
discards what another list appended there.
-/

namespace Lib

open List
variable {α : Type*}

/-! ## Windows -/

variable (l : List α)

/-- The elements at the positions from `start` on, up to but not including `stop`. -/
def window (start stop : ℕ) : List α := (l.take stop).drop start

lemma window_eq_nil {l : List α} {start stop : ℕ} (h : stop ≤ start) : window l start stop = [] :=
  drop_eq_nil_of_le ((length_take_le stop l).trans h)

lemma length_window (start stop : ℕ) :
    (window l start stop).length = min stop l.length - start := by
  rw [window, length_drop, length_take]

lemma window_append_window {a b c : ℕ} (hab : a ≤ b) (hbc : b ≤ c) :
    window l a b ++ window l b c = window l a c := by
  have hsplit : l.take c = l.take b ++ (l.take c).drop b := by
    conv_lhs => rw [← take_append_drop b (l.take c), take_take, min_eq_left hbc]
  unfold window
  rcases Nat.lt_or_ge l.length b with hlt | hge
  · rw [take_of_length_le hlt.le, take_of_length_le (by omega),
      drop_eq_nil_of_le hlt.le, append_nil]
  · conv_rhs => rw [hsplit]
    rw [drop_append_of_le_length (by rw [length_take]; omega)]

lemma window_append_left (l l' : List α) {a b : ℕ} (hb : b ≤ l.length) :
    window (l ++ l') a b = window l a b := by
  rw [window, take_append_of_le_length hb]
  rfl

lemma window_append_right (l l' : List α) {a : ℕ} (b : ℕ) (ha : l.length ≤ a) :
    window (l ++ l') a b = window l' (a - l.length) (b - l.length) := by
  rw [window, take_append, drop_append, drop_eq_nil_of_le]
  · rcases Nat.lt_or_ge b l.length with hlt | hge
    · rw [show b - l.length = 0 by omega, window_eq_nil (Nat.zero_le _)]
      simp
    · rw [length_take, min_eq_right hge]
      rfl
  · exact (length_take_le' b l).trans ha

lemma window_window (a b start stop : ℕ) :
    window (window l a b) start stop = window l (a + start) (min b (a + stop)) := by
  unfold window
  rw [take_drop, take_take, drop_drop, min_comm]

lemma window_mono {l l' : List α} (h : l <+: l') (a b : ℕ) : window l a b <+: window l' a b :=
  (h.take b).drop a

lemma window_min_length (start stop : ℕ) :
    window l (min start l.length) (min stop l.length) = window l start stop := by
  have htake : l.take (min stop l.length) = l.take stop := take_eq_take_iff.2 (by simp)
  rw [window, window, htake, drop_eq_drop_iff, length_take]
  omega

/-! ## Splitting into chunks -/

/-- The number of chunks of size `size` that `n` elements fill. -/
def chunkCount (size n : ℕ) : ℕ := (n + size - 1) / size

/-- A list in chunks of size `size`, the last one possibly shorter. The first argument bounds the
number of chunks. -/
def chunksAux (size : ℕ) : ℕ → List α → List (List α)
  | 0, _ => []
  | fuel + 1, l => if l.isEmpty then [] else l.take size :: chunksAux size fuel (l.drop size)

/-- A list in chunks of size `size`. -/
def chunks (size : ℕ) (l : List α) : List (List α) := chunksAux size l.length l

section
variable {size : ℕ} (hsize : 0 < size)
include hsize

lemma chunkCount_spec (n : ℕ) :
    n ≤ chunkCount size n * size ∧ chunkCount size n * size < n + size := by
  have hmod := Nat.mod_lt (n + size - 1) hsize
  have hdiv := Nat.div_add_mod (n + size - 1) size
  have hcomm : chunkCount size n * size = size * ((n + size - 1) / size) := by
    rw [chunkCount, Nat.mul_comm]
  omega

lemma lt_chunkCount {n i : ℕ} :
    i < chunkCount size n ↔ i * size < n := by
  rw [chunkCount, Nat.lt_div_iff_mul_lt hsize]
  omega

lemma getElem?_chunksAux {fuel : ℕ} {l : List α} (hfuel : l.length ≤ fuel) (i : ℕ) :
    (chunksAux size fuel l)[i]?
      = if i * size < l.length then some (window l (i * size) ((i + 1) * size)) else none := by
  induction fuel generalizing l i with
  | zero =>
    obtain rfl : l = [] := length_eq_zero_iff.1 (by omega)
    simp [chunksAux]
  | succ fuel ih =>
    rw [chunksAux]
    by_cases hnil : l = []
    · simp [hnil]
    · rw [if_neg (by simpa using hnil)]
      have hpos : 0 < l.length := length_pos_iff.2 hnil
      cases i with
      | zero => simp [window, hpos]
      | succ i =>
        have hrest := ih (l := l.drop size) (by rw [length_drop]; omega) i
        rw [getElem?_cons_succ, hrest, length_drop]
        have hiff : i * size < l.length - size ↔ (i + 1) * size < l.length := by
          rw [Nat.add_mul]
          omega
        have hwindow : window (l.drop size) (i * size) ((i + 1) * size)
            = window l ((i + 1) * size) ((i + 1 + 1) * size) := by
          unfold window
          rw [take_drop, drop_drop]
          congr 2 <;> ring
        simp only [hiff, hwindow]

lemma getElem?_chunks (l : List α) (i : ℕ) :
    (chunks size l)[i]?
      = if i * size < l.length then some (window l (i * size) ((i + 1) * size)) else none :=
  getElem?_chunksAux hsize le_rfl i

lemma length_chunks (l : List α) : (chunks size l).length = chunkCount size l.length := by
  have hlt : ∀ i, (chunks size l).length ≤ i ↔ chunkCount size l.length ≤ i := by
    intro i
    rw [← List.getElem?_eq_none_iff, getElem?_chunks hsize, ← not_lt, lt_chunkCount hsize]
    split_ifs with h <;> simp [h]
  have h₁ := hlt (chunks size l).length
  have h₂ := hlt (chunkCount size l.length)
  omega

end

/-! ## States -/

/-- The state of a list: its elements, or the ids of its chunks with its length and the size of a
chunk. -/
inductive ChunkedList (α : Type*) where
  | inline (items : List α)
  | external (chunkIds : List ℕ) (len chunkSize : ℕ)

namespace ChunkedList

/-- The length of the list. -/
def total : ChunkedList α → ℕ
  | inline items => items.length
  | external _ len _ => len

/-- The chunks of the list. -/
def ids : ChunkedList α → List ℕ
  | inline _ => []
  | external chunkIds _ _ => chunkIds

/-- New chunks for some elements, with ids from `next` on. -/
def allocate (size next : ℕ) (values : List α) : List (ℕ × List α) :=
  (chunks size values).zipIdx next |>.map Prod.swap

variable (read : ℕ → Option (List α))

/-- What an append does to the last chunk: nothing when it is full, else it is rewritten with as much
as fits. Returns the rewritten chunk and what is left; the error is a chunk that is shorter than the
list says. -/
def fillLast (chunkIds : List ℕ) (len size : ℕ) (values : List α) :
    Except (ℕ × ℕ) (List (ℕ × List α) × List α) :=
  let rem := len % size
  match chunkIds.getLast? with
  | none => .ok ([], values)
  | some last =>
    if rem = 0 then .ok ([], values)
    else
      let items := ((read last).getD []).take rem
      if items.length < rem then .error (last, rem)
      else
        let free := size - items.length
        .ok ([(last, items ++ values.take free)], values.drop free)

/-- The result of an append: the new state, the chunks written, and the next free id. -/
structure Appended (α : Type*) where
  state : ChunkedList α
  puts : List (ℕ × List α)
  next : ℕ

/-- Append elements. A list that outgrows `cap` goes into chunks of size `newSize`. -/
def append (cap newSize : ℕ) (read : ℕ → Option (List α)) (next : ℕ) (st : ChunkedList α)
    (values : List α) : Except (ℕ × ℕ) (Appended α) :=
  match st with
  | inline items =>
    if items.length + values.length ≤ cap then .ok ⟨inline (items ++ values), [], next⟩
    else
      let merged := items ++ values
      let size := max newSize 1
      let allocated := allocate size next merged
      .ok ⟨external (allocated.map Prod.fst) merged.length size, allocated, next + allocated.length⟩
  | external chunkIds len chunkSize =>
    let size := max chunkSize 1
    match fillLast read chunkIds len size values with
    | .error e => .error e
    | .ok (filled, pending) =>
      let allocated := allocate size next pending
      .ok ⟨external (chunkIds ++ allocated.map Prod.fst) (len + values.length) size,
        filled ++ allocated, next + allocated.length⟩

/-- The part of a chunk that a read takes: the chunk starts at position `first` of the list. -/
def readChunk (items : List α) (first start stop : ℕ) : List α :=
  let lo := min (start - first) items.length
  let hi := min (stop - first) items.length
  if lo < hi then (items.take hi).drop lo else []

/-- Read the positions from `start` on, up to but not including `stop`, from the chunks. A missing
chunk is skipped. -/
def readChunks (chunkIds : List ℕ) (size start stop : ℕ) : List α :=
  let first := start / size
  let last := min (chunkCount size stop) chunkIds.length
  if chunkIds.length ≤ first ∨ last ≤ first then []
  else
    (((chunkIds.take last).drop first).zipIdx first).flatMap fun entry =>
      match read entry.1 with
      | none => []
      | some items => readChunk items (entry.2 * size) start stop

/-! ## What a state stands for -/

/-- The chunks hold the list: each starts with its part of the list, and is not too long. -/
structure HoldsChunks (read : ℕ → Option (List α)) (chunkIds : List ℕ) (size : ℕ) (l : List α) :
    Prop where
  pos : 0 < size
  count : chunkIds.length = chunkCount size l.length
  nodup : chunkIds.Nodup
  chunk : ∀ (i id : ℕ), chunkIds[i]? = some id → ∃ items, read id = some items ∧
    items.length ≤ size ∧ window l (i * size) ((i + 1) * size) <+: items

/-- The state, with the chunks read, stands for the list. -/
def Represents : ChunkedList α → List α → Prop
  | inline items, l => items = l
  | external chunkIds len size, l => len = l.length ∧ HoldsChunks read chunkIds size l

/-- The second state is a later state of the same list. -/
def Grew : ChunkedList α → ChunkedList α → Prop
  | inline _, _ => True
  | external chunkIds _ size, external chunkIds' _ size' => chunkIds <+: chunkIds' ∧ size = size'
  | external _ _ _, inline _ => False

lemma Grew.refl (st : ChunkedList α) : Grew st st := by
  cases st with
  | inline items => trivial
  | external chunkIds len size => exact ⟨prefix_rfl, rfl⟩

lemma Grew.trans {a b c : ChunkedList α} (hab : Grew a b) (hbc : Grew b c) : Grew a c := by
  cases a with
  | inline items => trivial
  | external chunkIds len size =>
    cases b with
    | inline items => exact hab.elim
    | external chunkIds' len' size' =>
      cases c with
      | inline items => exact hbc.elim
      | external chunkIds'' len'' size'' => exact ⟨hab.1.trans hbc.1, hab.2.trans hbc.2⟩

/-! ## Reads -/

lemma readChunk_eq (items : List α) (first start stop : ℕ) :
    readChunk items first start stop = window items (start - first) (stop - first) := by
  unfold readChunk
  rw [← window_min_length]
  simp only
  split_ifs with hlt
  · rfl
  · exact (window_eq_nil (not_lt.1 hlt)).symm

variable {size next : ℕ} {l : List α} {read read' : ℕ → Option (List α)} {chunkIds : List ℕ}
  {st : ChunkedList α}

lemma readChunk_of_isPrefix {items : List α} (hlen : items.length ≤ size) {i start stop : ℕ}
    (hpre : window l (i * size) ((i + 1) * size) <+: items) (hstop : stop ≤ l.length)
    (hi : i * size < stop) :
    readChunk items (i * size) start stop
      = window l (max start (i * size)) (min stop ((i + 1) * size)) := by
  have hsucc : (i + 1) * size = i * size + size := by ring
  have hwlen := length_window l (i * size) ((i + 1) * size)
  -- the chunk agrees with its part of the list as far as the read goes
  have htake : items.take (stop - i * size)
      = (window l (i * size) ((i + 1) * size)).take (stop - i * size) := by
    obtain ⟨rest, hrest⟩ := hpre
    rcases Nat.lt_or_ge l.length ((i + 1) * size) with hlt | hge
    · rw [← hrest, take_append_of_le_length (by omega)]
    · have hlenRest := congrArg List.length hrest
      rw [length_append] at hlenRest
      have hnil : rest = [] := length_eq_zero_iff.1 (by omega)
      rw [← hrest, hnil, append_nil]
  rw [readChunk_eq, window, htake, ← window, window_window]
  congr 1 <;> omega

section
variable (h : HoldsChunks read chunkIds size l) {start stop : ℕ} (hstop : stop ≤ l.length)
include h hstop

/-- The chunks met so far contribute the list up to where they end. -/
theorem HoldsChunks.flatMap_eq (n : ℕ) (hids : start / size + n ≤ chunkIds.length)
    (hcount : start / size + n ≤ chunkCount size stop) :
    ((((chunkIds.take (start / size + n)).drop (start / size)).zipIdx (start / size)).flatMap
        fun entry => match read entry.1 with
          | none => []
          | some items => readChunk items (entry.2 * size) start stop)
      = window l start (min stop ((start / size + n) * size)) := by
  have hfirst : start / size * size ≤ start := Nat.div_mul_le_self start size
  have hnext : start < (start / size + 1) * size := by
    rw [Nat.mul_comm]
    exact Nat.lt_mul_div_succ start h.pos
  induction n with
  | zero => simp [window_eq_nil (show min stop (start / size * size) ≤ start by omega)]
  | succ n ih =>
    have hget : chunkIds[start / size + n]? = some chunkIds[start / size + n] :=
      getElem?_eq_getElem (by omega)
    obtain ⟨items, hread, hlen, hpre⟩ := h.chunk _ _ hget
    have hi : (start / size + n) * size < stop := (lt_chunkCount h.pos).1 (by omega)
    have hmul : (start / size + n) * size = start / size * size + n * size := by ring
    have hmul' : (start / size + 1) * size = start / size * size + size := by ring
    have hmul'' : (start / size + n + 1) * size = (start / size + n) * size + size := by ring
    have hsplit : (chunkIds.take (start / size + (n + 1))).drop (start / size)
        = (chunkIds.take (start / size + n)).drop (start / size) ++ [chunkIds[start / size + n]] := by
      rw [← Nat.add_assoc, take_add_one, hget, Option.toList_some,
        drop_append_of_le_length (by rw [length_take]; omega)]
    have hidx : ((chunkIds.take (start / size + n)).drop (start / size)).length = n := by
      rw [length_drop, length_take]
      omega
    rw [hsplit, zipIdx_append, flatMap_append, ih (by omega) (by omega), hidx]
    simp only [zipIdx_cons, zipIdx_nil, flatMap_cons, flatMap_nil, append_nil,
      hread]
    rw [readChunk_of_isPrefix hlen hpre hstop hi, ← Nat.add_assoc]
    rcases Nat.eq_zero_or_pos n with rfl | hn
    · rw [window_eq_nil (by omega), nil_append, Nat.add_zero, max_eq_left hfirst]
    · have hge : size ≤ n * size := Nat.le_mul_of_pos_left size hn
      rw [max_eq_right (by omega), min_eq_right (a := stop) (by omega),
        window_append_window _ (by omega) (by omega)]

/-- A read that ends within the list returns the part of the list. -/
theorem HoldsChunks.readChunks_eq (hlt : start < stop) :
    readChunks read chunkIds size start stop = window l start stop := by
  have hfirst : start / size < chunkCount size stop :=
    (lt_chunkCount h.pos).2 (Nat.lt_of_le_of_lt (Nat.div_mul_le_self start size) hlt)
  have hcount : chunkCount size stop ≤ chunkIds.length := by
    rw [h.count]
    exact Nat.div_le_div_right (by omega)
  have hlast := (chunkCount_spec h.pos stop).1
  have hflat := h.flatMap_eq hstop (chunkCount size stop - start / size)
    ((Nat.add_sub_of_le hfirst.le).trans_le hcount) (Nat.add_sub_of_le hfirst.le).le
  rw [Nat.add_sub_of_le hfirst.le, min_eq_left hlast] at hflat
  rw [readChunks]
  simp only [min_eq_left hcount]
  rw [if_neg (by omega)]
  exact hflat

end

lemma Represents.total_eq (h : Represents read st l) : st.total = l.length := by
  cases st with
  | inline items => exact congrArg List.length h
  | external chunkIds len size => exact h.1

/-! ## Appends -/

lemma chunkCount_eq {n k : ℕ} (hsize : 0 < size) (hle : n ≤ k * size) (hlt : k * size < n + size) :
    chunkCount size n = k := by
  have hsucc : (k + 1) * size = k * size + size := Nat.succ_mul k size
  exact Nat.div_eq_of_lt_le (by omega) (by omega)

section
variable (hsize : 0 < size) (values : List α)
include hsize

lemma map_fst_allocate :
    (allocate size next values).map Prod.fst = List.range' next (chunkCount size values.length) := by
  rw [allocate, List.map_map, ← length_chunks hsize, ← zipIdx_map_snd]
  rfl

lemma length_allocate :
    (allocate size next values).length = chunkCount size values.length := by
  rw [allocate, length_map, length_zipIdx, length_chunks hsize]

lemma getElem?_allocate (i : ℕ) :
    (allocate size next values)[i]? = if i * size < values.length
      then some (next + i, window values (i * size) ((i + 1) * size)) else none := by
  rw [allocate, getElem?_map, getElem?_zipIdx, getElem?_chunks hsize]
  split_ifs <;> rfl

variable {values} in
lemma mem_allocate {id : ℕ} (h : id ∈ (allocate size next values).map Prod.fst) :
    next ≤ id ∧ id < next + (allocate size next values).length := by
  rw [map_fst_allocate hsize, mem_range'_1] at h
  rwa [length_allocate hsize]

end

section
variable (h : HoldsChunks read chunkIds size l)
include h

lemma HoldsChunks.append_allocate {pending : List α}
    (hfull : pending = [] ∨ l.length = chunkIds.length * size) (hids : ∀ id ∈ chunkIds, id < next)
    (hread : ∀ p ∈ allocate size next pending, read p.1 = some p.2) :
    HoldsChunks read (chunkIds ++ (allocate size next pending).map Prod.fst) size (l ++ pending) := by
  rcases hfull with rfl | hfull
  · have hnil : (allocate size next ([] : List α)).map Prod.fst = [] := rfl
    rw [hnil, append_nil, append_nil]
    exact h
  refine ⟨h.pos, ?_, ?_, fun i id hi => ?_⟩
  · obtain ⟨hle, hlt⟩ := chunkCount_spec h.pos pending.length
    rw [length_append, length_map, length_allocate h.pos, length_append]
    refine (chunkCount_eq h.pos ?_ ?_).symm
    · rw [Nat.add_mul]
      omega
    · rw [Nat.add_mul]
      omega
  · rw [map_fst_allocate h.pos]
    refine nodup_append.2 ⟨h.nodup, nodup_range', fun a ha b hb heq => ?_⟩
    have hlt := hids a ha
    have hge := (mem_range'_1.1 hb).1
    omega
  · rcases Nat.lt_or_ge i chunkIds.length with hlt | hge
    · rw [getElem?_append_left hlt] at hi
      obtain ⟨items, hitems, hlen, hpre⟩ := h.chunk i id hi
      refine ⟨items, hitems, hlen, ?_⟩
      rwa [window_append_left]
      rw [hfull]
      exact Nat.mul_le_mul_right _ hlt
    · rw [getElem?_append_right hge, getElem?_map, getElem?_allocate h.pos] at hi
      split_ifs at hi with hlt
      · obtain rfl : next + (i - chunkIds.length) = id := by simpa using hi
        have hmem : (next + (i - chunkIds.length), window pending ((i - chunkIds.length) * size)
            ((i - chunkIds.length + 1) * size)) ∈ allocate size next pending :=
          mem_of_getElem? (by rw [getElem?_allocate h.pos, if_pos hlt])
        have hsub : i * size = chunkIds.length * size + (i - chunkIds.length) * size := by
          rw [← Nat.add_mul]
          congr 1
          omega
        refine ⟨_, hread _ hmem, ?_, ?_⟩
        · rw [length_window, Nat.add_mul]
          omega
        · rw [window_append_right _ _ _ (by omega)]
          have hlo : i * size - l.length = (i - chunkIds.length) * size := by omega
          have hhi : (i + 1) * size - l.length = (i - chunkIds.length + 1) * size := by
            rw [Nat.add_mul, Nat.add_mul]
            omega
          rw [hlo, hhi]
      · simp at hi

lemma HoldsChunks.length_eq (hrem : l.length % size ≠ 0) :
    0 < chunkIds.length ∧ l.length = (chunkIds.length - 1) * size + l.length % size ∧
      (chunkIds.length - 1) * size + size = chunkIds.length * size := by
  have hdiv := Nat.div_add_mod l.length size
  have hmod := Nat.mod_lt l.length h.pos
  have hcomm : size * (l.length / size) = l.length / size * size := Nat.mul_comm _ _
  have hcount : chunkIds.length = l.length / size + 1 := by
    rw [h.count]
    refine chunkCount_eq h.pos ?_ ?_ <;> rw [Nat.add_mul] <;> omega
  rw [hcount, Nat.add_sub_cancel, Nat.succ_mul]
  exact ⟨Nat.succ_pos _, by omega, rfl⟩

lemma HoldsChunks.fill {last : ℕ} {extra : List α} (hlast : chunkIds.getLast? = some last)
    (hrem : l.length % size ≠ 0) (hextra : extra.length ≤ size - l.length % size)
    (hnew : read' last = some (l.drop ((chunkIds.length - 1) * size) ++ extra))
    (hold : ∀ id ∈ chunkIds, id ≠ last → read' id = read id) :
    HoldsChunks read' chunkIds size (l ++ extra) := by
  obtain ⟨hpos, hlength, hsucc⟩ := h.length_eq hrem
  have hmod := Nat.mod_lt l.length h.pos
  rw [getLast?_eq_getElem?] at hlast
  refine ⟨h.pos, ?_, h.nodup, fun i id hi => ?_⟩
  · rw [length_append]
    exact (chunkCount_eq h.pos (by omega) (by omega)).symm
  · obtain ⟨hlt, -⟩ := List.getElem?_eq_some_iff.1 hi
    by_cases hi' : i = chunkIds.length - 1
    · rw [hi', hlast] at hi
      rw [← Option.some_inj.1 hi]
      refine ⟨_, hnew, ?_, ?_⟩
      · rw [length_append, length_drop]
        omega
      · rw [hi', window, take_of_length_le, drop_append_of_le_length (by omega)]
        rw [length_append, Nat.add_mul]
        omega
    · have hne : id ≠ last := by
        rintro rfl
        exact hi' ((getElem?_inj hlt h.nodup).1 (hi.trans hlast.symm))
      obtain ⟨items, hitems, hlen, hpre⟩ := h.chunk i id hi
      refine ⟨items, (hold id (mem_of_getElem? hi) hne).trans hitems, hlen, ?_⟩
      rwa [window_append_left]
      have hle : (i + 1) * size ≤ (chunkIds.length - 1) * size :=
        Nat.mul_le_mul_right _ (by omega)
      omega

end

/-- An earlier state of a list is readable wherever a later one is. -/
theorem Represents.of_grew {st' : ChunkedList α} {l' : List α} (h : Represents read st l)
    (h' : Represents read' st' l') (hgrew : Grew st st') (hpre : l <+: l') :
    Represents read' st l := by
  cases st with
  | inline items => exact h
  | external chunkIds len size =>
    cases st' with
    | inline items => exact hgrew.elim
    | external chunkIds' len' size' =>
      obtain ⟨⟨rest, rfl⟩, rfl⟩ := hgrew
      refine ⟨h.1, h.2.pos, h.2.count, h.2.nodup, fun i id hi => ?_⟩
      obtain ⟨hlt, -⟩ := List.getElem?_eq_some_iff.1 hi
      obtain ⟨items, hitems, hlen, hwindow⟩ :=
        h'.2.chunk i id (by rwa [getElem?_append_left hlt])
      exact ⟨items, hitems, hlen, (window_mono hpre _ _).trans hwindow⟩

/-- A state is readable in every store that has its chunks. -/
theorem Represents.congr (h : Represents read st l) (hread : ∀ id ∈ st.ids, read' id = read id) :
    Represents read' st l := by
  cases st with
  | inline items => exact h
  | external chunkIds len size =>
    refine ⟨h.1, h.2.pos, h.2.count, h.2.nodup, fun i id hi => ?_⟩
    rw [hread id (mem_of_getElem? hi)]
    exact h.2.chunk i id hi

/-- What an append to a state does, with the ids from `next` on not in use. -/
structure AppendSpec (read : ℕ → Option (List α)) (next : ℕ) (st : ChunkedList α) (l : List α)
    (r : Appended α) : Prop where
  next_le : next ≤ r.next
  puts_ids : ∀ p ∈ r.puts, (p.1 ∈ st.ids ∨ next ≤ p.1) ∧ p.1 < r.next
  puts_nodup : (r.puts.map Prod.fst).Nodup
  state_ids : ∀ id ∈ r.state.ids, (id ∈ st.ids ∨ next ≤ id) ∧ id < r.next
  total : r.state.total = l.length
  grew : Grew st r.state
  represents : ∀ read' : ℕ → Option (List α), (∀ p ∈ r.puts, read' p.1 = some p.2) →
    (∀ id ∈ st.ids, id ∉ r.puts.map Prod.fst → read' id = read id) → Represents read' r.state l

lemma AppendSpec.congr {r : Appended α} (h : AppendSpec read next st l r)
    (hread : ∀ id ∈ st.ids, read' id = read id) : AppendSpec read' next st l r :=
  { h with
    represents := fun read'' hputs hsame =>
      h.represents read'' hputs fun id hid hnot => (hsame id hid hnot).trans (hread id hid) }

/-- What `fillLast` leaves behind: either the list ends with a full chunk and nothing was written, or
the last chunk was filled up. -/
theorem fillLast_spec (h : HoldsChunks read chunkIds size l) (values : List α) :
    (l.length = chunkIds.length * size ∧
      fillLast read chunkIds l.length size values = .ok ([], values)) ∨
    ∃ last free, chunkIds.getLast? = some last ∧ l.length % size ≠ 0 ∧
      free = size - l.length % size ∧
      fillLast read chunkIds l.length size values
        = .ok ([(last, l.drop ((chunkIds.length - 1) * size) ++ values.take free)],
            values.drop free) := by
  by_cases hrem : l.length % size = 0
  · refine .inl ⟨?_, ?_⟩
    · have hdvd := Nat.div_add_mod l.length size
      have hcount : chunkIds.length = l.length / size := by
        have hcomm : size * (l.length / size) = l.length / size * size := Nat.mul_comm _ _
        have hpos := h.pos
        rw [h.count]
        exact chunkCount_eq h.pos (by omega) (by omega)
      rw [hcount, Nat.mul_comm]
      omega
    · unfold fillLast
      split
      · rfl
      · rw [if_pos hrem]
  · obtain ⟨hpos, hlength, -⟩ := h.length_eq hrem
    have hget : chunkIds[chunkIds.length - 1]? = some chunkIds[chunkIds.length - 1] :=
      getElem?_eq_getElem (by omega)
    have hmod := Nat.mod_lt l.length h.pos
    obtain ⟨items, hitems, -, hpre⟩ := h.chunk _ _ hget
    -- the last chunk starts with the end of the list
    have hwindow : window l ((chunkIds.length - 1) * size) ((chunkIds.length - 1 + 1) * size)
        = l.drop ((chunkIds.length - 1) * size) := by
      rw [window, take_of_length_le]
      rw [Nat.add_mul]
      omega
    have hdrop : (l.drop ((chunkIds.length - 1) * size)).length = l.length % size := by
      rw [length_drop]
      omega
    have htake : items.take (l.length % size) = l.drop ((chunkIds.length - 1) * size) := by
      rw [hwindow] at hpre
      rw [← hdrop]
      exact prefix_iff_eq_take.1 hpre |>.symm
    refine .inr ⟨chunkIds[chunkIds.length - 1], size - l.length % size, ?_, hrem, rfl, ?_⟩
    · rw [getLast?_eq_getElem?, hget]
    · rw [fillLast, getLast?_eq_getElem?, hget]
      simp only [hitems, Option.getD_some, htake, hdrop, lt_irrefl, if_false, if_neg hrem]

/-- A list in chunks: some of the new elements fill the last chunk, the rest goes into new ones. -/
theorem append_spec_external (extra pending : List α) (filled : List (ℕ × List α))
    (hsize : 0 < size) (hids : ∀ id ∈ chunkIds, id < next) (hfilled : ∀ p ∈ filled, p.1 ∈ chunkIds)
    (hnodup : (filled.map Prod.fst).Nodup)
    (hholds : ∀ read' : ℕ → Option (List α), (∀ p ∈ filled, read' p.1 = some p.2) → (∀ id ∈ chunkIds, id ∉ filled.map Prod.fst → read' id = read id) → HoldsChunks read' chunkIds size (l ++ extra))
    (hfull : pending = [] ∨ (l ++ extra).length = chunkIds.length * size) :
    AppendSpec read next (external chunkIds l.length size) (l ++ extra ++ pending)
      ⟨external (chunkIds ++ (allocate size next pending).map Prod.fst)
          (l ++ extra ++ pending).length size,
        filled ++ allocate size next pending, next + (allocate size next pending).length⟩ where
  next_le := Nat.le_add_right _ _
  puts_ids p hp := by
    rcases mem_append.1 hp with hp | hp
    · exact ⟨.inl (hfilled p hp), Nat.lt_add_right _ (hids _ (hfilled p hp))⟩
    · obtain ⟨hge, hlt⟩ := mem_allocate hsize (List.mem_map_of_mem hp)
      exact ⟨.inr hge, hlt⟩
  puts_nodup := by
    rw [map_append, nodup_append]
    refine ⟨hnodup, by rw [map_fst_allocate hsize]; exact nodup_range', fun a ha b hb heq => ?_⟩
    obtain ⟨p, hp, rfl⟩ := List.mem_map.1 ha
    have hlt := hids _ (hfilled p hp)
    have hge := (mem_allocate hsize hb).1
    omega
  state_ids id hid := by
    rcases mem_append.1 hid with hid | hid
    · exact ⟨.inl hid, Nat.lt_add_right _ (hids _ hid)⟩
    · obtain ⟨hge, hlt⟩ := mem_allocate hsize hid
      exact ⟨.inr hge, hlt⟩
  total := rfl
  grew := ⟨prefix_append _ _, rfl⟩
  represents read' hread hsame := by
    refine ⟨rfl, HoldsChunks.append_allocate ?_ hfull hids fun p hp => ?_⟩
    · refine hholds read' (fun p hp => hread p (mem_append_left _ hp)) fun id hid hnot => ?_
      refine hsame id hid fun hmem => ?_
      rw [map_append, mem_append] at hmem
      rcases hmem with hmem | hmem
      · exact hnot hmem
      · have hlt := hids id hid
        have hge := (mem_allocate hsize hmem).1
        omega
    · exact hread p (mem_append_right _ hp)

lemma append_spec_merged (hsize : 0 < size) (items l : List α) :
    AppendSpec read next (inline items) l
      ⟨external ((allocate size next l).map Prod.fst) l.length size, allocate size next l,
        next + (allocate size next l).length⟩ :=
  { @append_spec_external α size next [] read [] [] l [] hsize (by simp) (by simp) (by simp)
      (fun _ _ _ => ⟨hsize, (chunkCount_eq hsize (by simp) (by simpa)).symm, nodup_nil, by simp⟩)
      (.inr (by simp)) with
    grew := trivial }

/-- An append succeeds and stands for the longer list. -/
theorem append_spec (h : Represents read st l) (hids : ∀ id ∈ st.ids, id < next) (cap newSize : ℕ)
    (values : List α) :
    ∃ r, append cap newSize read next st values = .ok r ∧
      AppendSpec read next st (l ++ values) r := by
  cases st with
  | inline items =>
    obtain rfl : items = l := h
    by_cases hcap : items.length + values.length ≤ cap
    · refine ⟨⟨inline (items ++ values), [], next⟩, by rw [append, if_pos hcap], ?_⟩
      exact ⟨le_rfl, by simp, by simp, by simp [ids], rfl, trivial, fun _ _ _ => rfl⟩
    · refine ⟨_, by rw [append, if_neg hcap], ?_⟩
      exact append_spec_merged (lt_max_of_lt_right Nat.one_pos) items _
  | external chunkIds len size =>
    obtain ⟨rfl, hchunks⟩ := h
    have hsize : max size 1 = size := max_eq_left hchunks.pos
    have hmod := Nat.mod_lt l.length hchunks.pos
    have hids' : ∀ id ∈ chunkIds, id < next := hids
    rcases fillLast_spec hchunks values with ⟨hfull, heq⟩ | ⟨last, free, hlast, hrem, rfl, heq⟩
    · have hold : Represents read (external chunkIds l.length size) l := ⟨rfl, hchunks⟩
      have hspec := append_spec_external [] values [] hchunks.pos hids' (by simp) (by simp)
        (fun read' _ hsame => by
          rw [append_nil]
          exact (hold.congr fun id hid => hsame id hid (by simp)).2)
        (.inr (by rwa [append_nil]))
      rw [append_nil] at hspec
      refine ⟨_, ?_, hspec⟩
      simp only [append, hsize, heq, length_append]
    · have hfull : values.drop (size - l.length % size) = [] ∨
          (l ++ values.take (size - l.length % size)).length = chunkIds.length * size := by
        rcases Nat.lt_or_ge (size - l.length % size) values.length with hlt | hge
        · have hlength := hchunks.length_eq hrem
          rw [length_append, length_take]
          omega
        · exact .inl (drop_eq_nil_of_le hge)
      have hspec := append_spec_external _ _ [(last, l.drop ((chunkIds.length - 1) * size)
          ++ values.take (size - l.length % size))] hchunks.pos hids'
        (by simpa using mem_of_getLast? hlast) (by simp)
        (fun read' hread hsame => hchunks.fill hlast hrem (length_take_le _ _)
          (hread _ mem_cons_self) fun id hid hne => hsame id hid (by simpa using hne)) hfull
      rw [append_assoc, take_append_drop] at hspec
      refine ⟨_, ?_, hspec⟩
      simp only [append, hsize, heq, length_append]

end ChunkedList

end Lib
