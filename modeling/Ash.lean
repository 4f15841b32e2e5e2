import Ash.AuthorizationRuns
import Ash.BatchReports
import Ash.CaptureContents
import Ash.ErrorFocus
import Ash.ExpandedPathnames
import Ash.FieldSplitting
import Ash.FrameStreams
import Ash.JournalCleanup
import Ash.LineReduction
import Ash.LineSlices
import Ash.ManifestCodec
import Ash.PathDictionaries
import Ash.ProcessOutcomes
import Ash.ProjectedLines
import Ash.ServeLoop
import Ash.SessionCancellation
import Ash.SnapshotDeltas
import Ash.TextDetection
import Ash.UpdateRuns
