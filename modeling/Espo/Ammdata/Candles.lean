import Espo.Ammdata.Quotes

/-!
# Candles

The trades of a block are collected in a cache, a candle for each pool, timeframe and bucket, and the cache
is merged with the stored candles when the block is written. Merging takes a candle of some trades and one
of later trades to the candle of all of them, and a single trade is merged as well. So it does not matter
how the trades are cut into blocks.
-/

namespace Espo.Ammdata
open Lib Espo.Essentials

/-- `Timeframe`. -/
inductive Timeframe where
  | m10 | h1 | h4 | d1 | w1 | m1
  deriving DecidableEq

/-- `duration_secs`. -/
def Timeframe.durationSecs : Timeframe → ℕ
  | .m10 => 10 * 60
  | .h1 => 60 * 60
  | .h4 => 4 * 60 * 60
  | .d1 => 24 * 60 * 60
  | .w1 => 7 * 24 * 60 * 60
  | .m1 => 30 * 24 * 60 * 60

/-- `bucket_start`. -/
def bucketStart (ts : ℕ) (frame : Timeframe) : ℕ := ts / frame.durationSecs * frame.durationSecs

/-- `SchemaCandleV1`; `open` is a keyword. -/
structure SchemaCandleV1 where
  opening : ℕ
  high : ℕ
  low : ℕ
  close : ℕ
  volume : ℕ
  deriving DecidableEq

/-- `DualCandle`, and `SchemaFullCandleV1` as it is stored. -/
structure DualCandle where
  base : SchemaCandleV1
  quote : SchemaCandleV1

/-- `CandleKey`. -/
structure CandleKey where
  pool : SchemaAlkaneId
  tf : Timeframe
  bucketTs : ℕ
  deriving DecidableEq

/-- The arguments of `apply_trade_for_frames`. -/
structure Trade where
  ts : ℕ
  pool : SchemaAlkaneId
  frames : List Timeframe
  pBPerQ : ℕ
  pQPerB : ℕ
  baseVolume : ℕ
  quoteVolume : ℕ

/-- `scale_amount`. -/
def scaleAmount (amount : ℕ) : ℕ := saturatingMul amount (10 ^ 16) / 10 ^ 8

/-- A side of `DualCandle::new`. -/
def SchemaCandleV1.new (p : ℕ) : SchemaCandleV1 := ⟨p, p, p, p, 0⟩

/-- A side of `DualCandle::update`. -/
def SchemaCandleV1.update (c : SchemaCandleV1) (p amount : ℕ) : SchemaCandleV1 :=
  { c with
    high := max c.high p
    low := min c.low p
    close := p
    volume := saturatingAdd c.volume (scaleAmount amount) }

/-- A side of the merge in `into_writes_with_entries`. -/
def SchemaCandleV1.merge (c new : SchemaCandleV1) : SchemaCandleV1 :=
  { c with
    high := max c.high new.high
    low := min c.low new.low
    close := new.close
    volume := saturatingAdd c.volume new.volume }

namespace DualCandle

/-- `DualCandle::new`. -/
def new (pBase pQuote : ℕ) : DualCandle := ⟨.new pBase, .new pQuote⟩

/-- `DualCandle::update`. -/
def update (c : DualCandle) (pBase pQuote baseIn quoteOut : ℕ) : DualCandle :=
  ⟨c.base.update pBase baseIn, c.quote.update pQuote quoteOut⟩

/-- The merge in `into_writes_with_entries`. -/
def merge (c new : DualCandle) : DualCandle := ⟨c.base.merge new.base, c.quote.merge new.quote⟩

end DualCandle

variable (t : Trade)

/-- The key of a trade on a timeframe. -/
def Trade.key (tf : Timeframe) : CandleKey := ⟨t.pool, tf, bucketStart t.ts tf⟩

/-- `CandleCache`. -/
abbrev CandleCache := AList fun _ : CandleKey => DualCandle

namespace CandleCache

/-- `apply_trade_for_frames`. -/
def applyTradeForFrames (cache : CandleCache) (t : Trade) : CandleCache :=
  t.frames.foldl (fun cache tf =>
    cache.insert (t.key tf) <|
      match cache.lookup (t.key tf) with
      | some c => c.update t.pQPerB t.pBPerQ t.baseVolume t.quoteVolume
      | none => (DualCandle.new t.pQPerB t.pBPerQ).update t.pQPerB t.pBPerQ t.baseVolume t.quoteVolume)
    cache

/-- `into_writes_with_entries`, over the stored candles. -/
def intoWrites (cache : CandleCache) (stored : Table CandleKey DualCandle) :
    List (CandleKey × DualCandle) :=
  cache.entries.map fun e => (e.1,
    match stored.get e.1 with
    | some existing => existing.merge e.2
    | none => e.2)

end CandleCache

variable (stored : Table CandleKey DualCandle)

/-- The stored candles after a block with the given trades. -/
def writeCandles (trades : List Trade) : Table CandleKey DualCandle :=
  stored.putAll ((trades.foldl CandleCache.applyTradeForFrames ∅).intoWrites stored)

/-! ## The candle of a list of trades -/

/-- The candle of a list of prices and volumes. -/
structure Summarises (c : SchemaCandleV1) (trades : List (ℕ × ℕ)) : Prop where
  opening : trades.head?.map Prod.fst = some c.opening
  high : IsGreatest {p | p ∈ trades.map Prod.fst} c.high
  low : IsLeast {p | p ∈ trades.map Prod.fst} c.low
  close : trades.getLast?.map Prod.fst = some c.close
  volume : c.volume = min (trades.map Prod.snd).sum u128Max

/-- The price and the volume of a trade on the base side. -/
def Trade.baseSide : ℕ × ℕ := (t.pQPerB, scaleAmount t.baseVolume)

/-- The price and the volume of a trade on the quote side. -/
def Trade.quoteSide : ℕ × ℕ := (t.pBPerQ, scaleAmount t.quoteVolume)

/-- There is a candle if there are trades, and it is theirs. -/
def IsCandleOf : Option DualCandle → List Trade → Prop
  | none, trades => trades = []
  | some c, trades =>
    Summarises c.base (trades.map Trade.baseSide) ∧ Summarises c.quote (trades.map Trade.quoteSide)

lemma scaleAmount_le (amount : ℕ) : scaleAmount amount ≤ u128Max :=
  (Nat.div_le_self _ _).trans (min_le_right _ _)

/-- Merging takes candles of earlier and of later trades to the candle of all of them. -/
theorem Summarises.merge {c d : SchemaCandleV1} {ts us : List (ℕ × ℕ)} (hc : Summarises c ts)
    (hd : Summarises d us) : Summarises (c.merge d) (ts ++ us) := by
  have hprices : {p | p ∈ (ts ++ us).map Prod.fst} =
      {p | p ∈ ts.map Prod.fst} ∪ {p | p ∈ us.map Prod.fst} := by
    ext p
    simp
  refine ⟨?_, hprices ▸ hc.high.union hd.high, hprices ▸ hc.low.union hd.low, ?_, ?_⟩
  · rw [List.head?_append, Option.map_or, hc.opening]
    rfl
  · rw [List.getLast?_append, Option.map_or, hd.close]
    rfl
  · show saturatingAdd c.volume d.volume = _
    rw [hc.volume, hd.volume, saturatingAdd, List.map_append, List.sum_append]
    omega

lemma summarises_single (p amount : ℕ) :
    Summarises ((SchemaCandleV1.new p).update p amount) [(p, scaleAmount amount)] := by
  refine ⟨rfl, ?_, ?_, rfl, ?_⟩
  · simp [SchemaCandleV1.new, SchemaCandleV1.update]
  · simp [SchemaCandleV1.new, SchemaCandleV1.update]
  · rw [List.map_singleton, List.sum_singleton]
    exact congrArg (min · u128Max) (Nat.zero_add _)

/-- An update merges the candle of the trade. -/
lemma update_eq_merge (c : SchemaCandleV1) (p amount : ℕ) :
    c.update p amount = c.merge ((SchemaCandleV1.new p).update p amount) := by
  have hvolume : saturatingAdd 0 (scaleAmount amount) = scaleAmount amount := by
    rw [saturatingAdd, Nat.zero_add, min_eq_left (scaleAmount_le amount)]
  simp [SchemaCandleV1.new, SchemaCandleV1.update, SchemaCandleV1.merge, hvolume]

/-- The candle of a trade. -/
def Trade.candle : DualCandle :=
  (DualCandle.new t.pQPerB t.pBPerQ).update t.pQPerB t.pBPerQ t.baseVolume t.quoteVolume

lemma IsCandleOf.merge {o o' : Option DualCandle} {ts us : List Trade} (h : IsCandleOf o ts)
    (h' : IsCandleOf o' us) : IsCandleOf (o.merge DualCandle.merge o') (ts ++ us) := by
  cases o with
  | none =>
    obtain rfl : ts = [] := h
    cases o' <;> exact h'
  | some c =>
    cases o' with
    | none =>
      obtain rfl : us = [] := h'
      rw [List.append_nil]
      exact h
    | some d =>
      show Summarises _ _ ∧ Summarises _ _
      rw [List.map_append, List.map_append]
      exact ⟨h.1.merge h'.1, h.2.merge h'.2⟩

/-! ## Blocks -/

/-- The trades of a candle, one for each time its timeframe is named. -/
def hits (k : CandleKey) (trades : List Trade) : List Trade :=
  trades.flatMap fun t => (t.frames.filter fun tf => t.key tf = k).map fun _ => t

lemma isCandleOf_applyTrade {cache : CandleCache} {k : CandleKey} {ts : List Trade}
    (h : IsCandleOf (cache.lookup k) ts) (t : Trade) :
    IsCandleOf ((cache.applyTradeForFrames t).lookup k) (ts ++ hits k [t]) := by
  unfold CandleCache.applyTradeForFrames hits
  rw [List.flatMap_singleton]
  generalize t.frames = frames
  induction frames generalizing cache ts with
  | nil => simpa using h
  | cons tf frames ih =>
    rw [List.foldl_cons]
    by_cases hk : t.key tf = k
    · rw [List.filter_cons_of_pos (by simpa using hk), List.map_cons, ← List.singleton_append,
        ← List.append_assoc]
      refine ih ?_
      subst hk
      have hsingle : IsCandleOf (some t.candle) [t] := ⟨summarises_single _ _, summarises_single _ _⟩
      have hmerge := h.merge hsingle
      rw [AList.lookup_insert]
      cases hc : cache.lookup (t.key tf) with
      | none =>
        rw [hc] at hmerge
        exact hmerge
      | some c =>
        rw [hc] at hmerge
        have heq : c.update t.pQPerB t.pBPerQ t.baseVolume t.quoteVolume = c.merge t.candle :=
          congrArg₂ DualCandle.mk (update_eq_merge _ _ _) (update_eq_merge _ _ _)
        dsimp only
        rw [heq]
        exact hmerge
    · rw [List.filter_cons_of_neg (by simpa using hk)]
      exact ih (by rwa [AList.lookup_insert_ne (Ne.symm hk)])

lemma isCandleOf_cache (k : CandleKey) (trades : List Trade) :
    IsCandleOf ((trades.foldl CandleCache.applyTradeForFrames ∅).lookup k) (hits k trades) := by
  induction trades using List.reverseRecOn with
  | nil => rfl
  | append_singleton trades t ih =>
    rw [List.foldl_append, hits, List.flatMap_append]
    exact isCandleOf_applyTrade ih t

lemma get_putAll_intoWrites (cache : CandleCache) (k : CandleKey) :
    (stored.putAll (cache.intoWrites stored)).get k =
      (stored.get k).merge DualCandle.merge (cache.lookup k) := by
  have hkeys : (cache.intoWrites stored).map Prod.fst = cache.keys := by
    simp [CandleCache.intoWrites, AList.keys, List.keys]
  cases hk : cache.lookup k with
  | none =>
    rw [Table.get_putAll_of_notMem _ (by rw [hkeys]; exact AList.lookup_eq_none.1 hk)]
    simp
  | some c =>
    have hmem : k ∈ cache := AList.lookup_isSome.1 (by rw [hk]; rfl)
    obtain ⟨v, hv, hget⟩ := Table.exists_get_putAll (k := k) (by rw [hkeys]; exact hmem)
    obtain ⟨⟨k', c'⟩, he, heq⟩ := List.mem_map.1 hv
    obtain ⟨rfl, rfl⟩ := Prod.mk.inj heq
    obtain rfl : c' = c := Option.some.inj ((AList.mem_lookup_iff.2 he).symm.trans hk)
    rw [hget]
    cases stored.get k' <;> rfl

/-- However the trades are cut into blocks, the stored candle is that of all trades of its pool, timeframe
and bucket: it opens at the first price and closes at the last, its high and low are the greatest and the
least, and its volume is the sum of theirs. -/
theorem candle_of_blocks (k : CandleKey) (blocks : List (List Trade)) :
    IsCandleOf ((blocks.foldl writeCandles ∅).get k) (hits k blocks.flatten) := by
  induction blocks using List.reverseRecOn with
  | nil => rfl
  | append_singleton blocks trades ih =>
    rw [List.foldl_append, List.flatten_append, hits, List.flatMap_append]
    simp only [List.foldl_cons, List.foldl_nil, writeCandles, List.flatten_singleton]
    rw [get_putAll_intoWrites]
    exact ih.merge (isCandleOf_cache k trades)

end Espo.Ammdata
