import Espo.Alkanes.Trace
import Espo.Essentials.Balances
import Espo.Lib.WriteBatch

/-!
# Series ids

Alkanes with the same name form a series. The first has the name as its id, the others have a number
behind it. When an alkane appears, the series of its name is read back by its ids, sorted, and numbered
again. The entries are stored by id and by alkane, and the ids are listed once more.

Some alkanes of a fixed list come first in their series, and are entered when the module starts.
-/

namespace Espo.Pizzafun
open Lib Alkanes Essentials

/-! ## Names -/

/-- `char::is_whitespace`. -/
def isWhitespace (c : Char) : Bool :=
  let n := c.toNat
  (0x09 ≤ n && n ≤ 0x0d) || n == 0x20 || n == 0x85 || n == 0xa0 || n == 0x1680 ||
    (0x2000 ≤ n && n ≤ 0x200a) || n == 0x2028 || n == 0x2029 || n == 0x202f || n == 0x205f || n == 0x3000

/-- `trim_matches`. -/
def trimMatches (p : Char → Bool) (s : Text) : Text := ((s.dropWhile p).reverse.dropWhile p).reverse

variable (s : Text)

/-- `str::trim`. -/
def trim : Text := trimMatches isWhitespace s

/-- `to_ascii_lowercase`. -/
def toAsciiLowercase : Text := s.map Char.toLower

/-- `normalize_alkane_name`. -/
def normalizeAlkaneName (name : Text) : Option Text :=
  let trimmed := trim (trimMatches (fun c => c.toNat == 0) name)
  if trimmed.isEmpty then none else some (toAsciiLowercase trimmed)

/-- `split_whitespace`. -/
def splitWhitespace : List Text := (s.splitOnP isWhitespace).filter fun word => !word.isEmpty

/-- `series_id_base_from_name`. -/
def seriesIdBaseFromName (nameNorm : Text) : Option Text :=
  let trimmed := trim nameNorm
  if trimmed.isEmpty then none
  else some (List.intercalate ['-'] (splitWhitespace (toAsciiLowercase trimmed)))

/-- `series_id_matches_name`. -/
def seriesIdMatchesName (seriesId nameNorm : Text) : Bool :=
  if seriesId = nameNorm then true
  else
    match (stripStart nameNorm seriesId).bind (stripStart ['-']) with
    | some num => !num.isEmpty && num.all Char.isDigit
    | none => false

/-- `parse::<u32>` or `parse::<u64>`, or a number in hex. -/
def parsePart (bound : ℕ) (s : Text) : Option ℕ :=
  match stripStart "0x".toList s with
  | some hex => fromStrRadix 16 bound hex
  | none => fromStrRadix 10 bound s

/-- `parse_alkane_id_str`. -/
def parseAlkaneIdStr : Option SchemaAlkaneId :=
  let block := s.takeWhile (· != ':')
  match s.dropWhile (· != ':') with
  | [] => none
  | _ :: tx =>
    (parsePart (2 ^ 32) block).bind fun block =>
      (parsePart (2 ^ 64) tx).bind fun tx => schemaIdFromParts block tx

/-! ## The store -/

/-- `SeriesEntry`. -/
structure SeriesEntry where
  seriesId : Text
  alkaneId : SchemaAlkaneId
  creationHeight : ℕ
  deriving DecidableEq

/-- The rows of the module: `SERIES_BY_ID`, `SERIES_BY_ALKANE` and `SERIES_ALL`. -/
structure SeriesStore where
  byId : Table Text SeriesEntry
  byAlkane : Table SchemaAlkaneId SeriesEntry
  all : Table Text Unit

namespace SeriesStore

/-- No rows. -/
def empty : SeriesStore := ⟨∅, ∅, ∅⟩

variable (s : SeriesStore)

/-- `raw_scan_prefix_keys` over the rows by id. Ids in the order of their bytes are in the order of their
characters. -/
def scanIds (name : Text) : List Text :=
  (s.byId.keys.filter fun id => name <+: id).sort (· ≤ ·)

/-- `read_series_ids_all`. -/
def readSeriesIdsAll : List Text := s.all.keys.sort (· ≤ ·)

variable (nameNorm : Text)

/-- The names under which the ids of a series are looked up. -/
def lookupNames : List Text :=
  match seriesIdBaseFromName nameNorm with
  | some base => if base ≠ nameNorm then [nameNorm, base] else [nameNorm]
  | none => [nameNorm]

/-- An id that matches is taken once. -/
def collectId (name : Text) (ids : List Text) (id : Text) : List Text :=
  if seriesIdMatchesName id name ∧ id ∉ ids then ids ++ [id] else ids

/-- `filtered_ids` of `get_series_entries_by_name`. -/
def filteredIds : List Text :=
  (lookupNames nameNorm).foldl (fun ids name => (s.scanIds name).foldl (collectId name) ids) []

/-- `get_series_entries_by_name`. -/
def getSeriesEntriesByName : List SeriesEntry :=
  (s.filteredIds nameNorm).filterMap s.byId.get

/-- `update_series_for_name`. -/
def updateSeriesForName (existing updated : List SeriesEntry) : SeriesStore :=
  let byId := dedupeOps (updated.map fun e => (e.seriesId, e)) (existing.map SeriesEntry.seriesId)
  let byAlkane := dedupeOps (updated.map fun e => (e.alkaneId, e)) (existing.map SeriesEntry.alkaneId)
  let all := dedupeOps (updated.map fun e => (e.seriesId, ())) (existing.map SeriesEntry.seriesId)
  { byId := s.byId.writeBatch byId.1 byId.2
    byAlkane := s.byAlkane.writeBatch byAlkane.1 byAlkane.2
    all := s.all.writeBatch all.1 all.2 }

end SeriesStore

/-! ## Series -/

/-- `PRIORITY_SERIES_ALKANES`. -/
def prioritySeriesAlkanes : List (Text × Text) :=
  [("2:68479".toList, "tortilla".toList), ("2:0".toList, "diesel".toList), ("32:0".toList, "frbtc".toList),
    ("2:16".toList, "methane".toList), ("2:77623".toList, "fire".toList)]

/-- `priority_index_map`. -/
def priorityIndex (alkane : SchemaAlkaneId) : Option ℕ :=
  prioritySeriesAlkanes.findIdx? fun e => parseAlkaneIdStr e.1 = some alkane

/-- The order of `sort_series_entries`. -/
def compareEntries (a b : SeriesEntry) : Ordering :=
  match priorityIndex a.alkaneId, priorityIndex b.alkaneId with
  | some ai, some bi =>
    ((compare ai bi).then (compare a.creationHeight b.creationHeight)).then (compare a.alkaneId b.alkaneId)
  | some _, none => .lt
  | none, some _ => .gt
  | none, none => (compare a.creationHeight b.creationHeight).then (compare a.alkaneId b.alkaneId)

/-- `sort_series_entries`. -/
def sortSeriesEntries (entries : List SeriesEntry) : List SeriesEntry :=
  entries.insertionSort fun a b => compareEntries a b ≠ .gt

/-- The entries of a series and the new ones that are not among them. -/
def combined (existing new : List SeriesEntry) : List SeriesEntry :=
  new.foldl (fun entries e => if e.alkaneId ∈ entries.map SeriesEntry.alkaneId then entries else entries ++ [e])
    existing

/-- The id at a place of a series. -/
def seriesIdAt (base : Text) (idx : ℕ) : Text :=
  if idx = 0 then base else base ++ '-' :: Nat.toDigits 10 (idx + 1)

/-- The entries of a series, numbered. -/
def numbered (base : Text) (entries : List SeriesEntry) : List SeriesEntry :=
  entries.zipIdx.map fun e => { e.1 with seriesId := seriesIdAt base e.2 }

variable (s : SeriesStore)

/-- `rebuild_series_for_name`. -/
def rebuildSeriesForName (name : Text) (newEntries : List SeriesEntry) : SeriesStore :=
  if newEntries.isEmpty then s
  else
    match seriesIdBaseFromName name with
    | none => s
    | some seriesBase =>
      let existing := s.getSeriesEntriesByName name
      let entries := combined existing newEntries
      if entries.length = existing.length then s
      else s.updateSeriesForName existing (numbered seriesBase (sortSeriesEntries entries))

/-- New entries by name, in the order in which they were pushed. -/
def byName (entries : List (Text × SeriesEntry)) : List (Text × List SeriesEntry) :=
  (entries.map Prod.fst).dedup.map fun name =>
    (name, (entries.filter fun e => e.1 = name).map Prod.snd)

variable (order : HashOrder) (s : SeriesStore)

/-- Enter all new entries; the names come in the order of a hash map. -/
def enter (entries : List (Text × SeriesEntry)) : SeriesStore :=
  (order.run (byName entries)).foldl (fun s group => rebuildSeriesForName s group.1 group.2) s

/-- The names and entries of the priority list. -/
def priorityEntries : List (Text × SeriesEntry) :=
  prioritySeriesAlkanes.filterMap fun e =>
    (parseAlkaneIdStr e.1).bind fun alkane => (normalizeAlkaneName e.2).map fun name =>
      (name, ⟨[], alkane, alkane.block⟩)

/-- `priority_family_seeded`. -/
def priorityFamilySeeded (baseName : Text) (alkane : SchemaAlkaneId) : Bool :=
  (s.byId.get baseName).any fun entry => entry.alkaneId = alkane

/-- `seed_priority_series_entries`. -/
def seedPrioritySeriesEntries : SeriesStore :=
  enter order s (priorityEntries.filter fun e => !priorityFamilySeeded s e.1 e.2.alkaneId)

/-! ## Blocks -/

/-- `AlkaneCreationRecord` with the fields that are read. -/
structure CreationRecord where
  alkane : SchemaAlkaneId
  creationHeight : ℕ
  names : List Text

/-- What the essentials know of a block: `get_creation_ids_in_block`, and `get_creation_records_by_id`. -/
structure SeriesBlock where
  createdIds : List SchemaAlkaneId
  record : SchemaAlkaneId → Option CreationRecord

/-- The name of a created alkane and its entry. -/
def CreationRecord.naming (rec : CreationRecord) : Option (Text × SeriesEntry) :=
  rec.names.head?.bind fun rawName => (normalizeAlkaneName rawName).map fun name =>
    (name, ⟨[], rec.alkane, rec.creationHeight⟩)

/-- The alkanes that a block names; each created id is taken once. -/
def SeriesBlock.namings (b : SeriesBlock) : List (Text × SeriesEntry) :=
  (b.createdIds.reverse.dedup.reverse.filterMap b.record).filterMap CreationRecord.naming

/-- What happens to the module: it starts, or indexes a block. -/
inductive SeriesEvent where
  | start
  | block (b : SeriesBlock)

/-- `set_mdb` and `index_block`, as far as series are concerned. -/
def SeriesEvent.apply : SeriesEvent → SeriesStore
  | .start => seedPrioritySeriesEntries order s
  | .block b => enter order s b.namings

/-- A list of events, each with the order that the hash map has. -/
def runSeries (events : List (HashOrder × SeriesEvent)) : SeriesStore :=
  events.foldl (fun s e => e.2.apply e.1 s) s

end Espo.Pizzafun
