import Espo.Tree.Reorg
import Espo.Tree.Canonical
import Espo.Lists.Reorg
import Espo.Essentials.AddressBalances
import Espo.Essentials.FilterBuild
import Espo.Indexer.Divergence
import Espo.Runes.Module
import Espo.Runes.Holders
import Espo.Essentials.TraceConservation
import Espo.Essentials.TraceMints
import Espo.Essentials.TraceSources
import Espo.Mempool.Recalculation
import Espo.Pizzafun.SeriesIndex
import Espo.Subfrost.Unwraps
import Espo.Tree.Invariant
import Espo.Tree.MultiGet
import Espo.Alkanes.StorageExtract
import Espo.Essentials.HolderRuns
import Espo.Essentials.AddressTokens
import Espo.Ammdata.ActivityRuns
import Espo.Ammdata.ReserveRuns
import Espo.Ammdata.Candles
import Espo.Ammdata.Paths
import Espo.Ammdata.NewPools
import Espo.Ammdata.TvlTotals
import Espo.Ammdata.Route
import Espo.Ammdata.TradeWindows
import Espo.Mempool.TemplateWeight
import Espo.Mempool.Replacement
import Espo.Projection.SquareRoot
import Espo.Oylapi.TokenListing
