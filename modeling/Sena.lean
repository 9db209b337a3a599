import Sena.Records
import Sena.DaBlob
import Sena.Digests
import Sena.Settlement
import Sena.Networks
import Sena.Lockout
import Sena.QueueTerms
import Sena.MempoolIndexes
import Sena.Siblings
import Sena.Exits
import Sena.Relayer
import Sena.WatcherPlays
import Sena.ChainMirror
import Sena.Rounds
import Sena.VerifierNode
