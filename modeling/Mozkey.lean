import Mozkey.Zenz.AdoptionTermination
import Mozkey.Zenz.OrthographyAgreement
import Mozkey.Zenz.PromptRoundtrip
import Mozkey.Session.SuspendedSequence
import Mozkey.Session.StaleCorrection
import Mozkey.Session.DisplayedValue
import Mozkey.Session.FeedbackSettlement
import Mozkey.Dictionary.FileRoundtrip
import Mozkey.Storage.LruCacheRecency
import Mozkey.Converter.FinalRanking
import Mozkey.Converter.MultiSegment
import Mozkey.Converter.PredictionAgreement
import Mozkey.Converter.TransitionCosts
import Mozkey.Converter.RankingGuardLaw
import Mozkey.Rewriter.BoundaryWrites
import Mozkey.Rewriter.ZenzFeedbackGuards
import Mozkey.Config.FormSynchronisation
import Mozkey.Zenz.ProjectionBlocks
import Mozkey.Zenz.FeedbackMonotone
import Mozkey.Zenz.EmojiGuard
import Mozkey.Zenz.SymbolTrimming
import Mozkey.Zenz.NameRepair
import Mozkey.Prediction.HistorySyncLoads
import Mozkey.Prediction.AccessTimes
import Mozkey.Zenz.ContextSelection
import Mozkey.Session.ProjectedSpans
import Mozkey.Session.PreeditPresentation
import Mozkey.Session.LearningConservation
import Mozkey.Storage.BitVectorArrayRoundtrip
import Mozkey.Composer.Rollback
import Mozkey.Composer.KeyEventsTotal
import Mozkey.Composer.RuleMap
import Mozkey.Converter.SegmenterTable
import Mozkey.Dictionary.UserDictionaryReloader
import Mozkey.Storage.EncryptedStringStorage
import Mozkey.Storage.LruMerge
import Mozkey.Dictionary.StringCodec
import Mozkey.Storage.ExistenceFilter
import Mozkey.Dictionary.UserDictionaryLookup
import Mozkey.Dictionary.PredictiveLookup
import Mozkey.Converter.KeyCorrector
import Mozkey.Converter.NBestDecomposition
import Mozkey.Converter.FunctionalPaths
import Mozkey.Converter.HistoryNormalization
import Mozkey.Converter.Resizing
import Mozkey.DataManager.DataSetRoundtrip
import Mozkey.Converter.InnerSegmentCuts
import Mozkey.Base.Utf8Codec
import Mozkey.Base.Csv
import Mozkey.Prediction.SelectedEntries
import Mozkey.Prediction.CommittedLinks
