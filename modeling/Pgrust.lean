import Pgrust.ClockSweep
import Pgrust.ClogReaders
import Pgrust.ColumnarDictEnsure
import Pgrust.ColumnarFooterRoundTrip
import Pgrust.ColumnarHllUnion
import Pgrust.ColumnarParallelIngest
import Pgrust.ColumnarStitchCodes
import Pgrust.CopyParallel
import Pgrust.CopySegmentation
import Pgrust.FreeSpaceSearch
import Pgrust.GranuleMap
import Pgrust.HeapVisibilityRuns
import Pgrust.LwLockWakeup
import Pgrust.Mailbox
import Pgrust.MultiXactRuns
import Pgrust.ParkLot
import Pgrust.PglzDecompress
import Pgrust.PrivRef
import Pgrust.ShmMqStream
import Pgrust.StandbyTracking
import Pgrust.WalFullPageImages
import Pgrust.WalInsertionWait
