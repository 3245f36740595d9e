import OpenIsr.Base.Run
import OpenIsr.Base.Count
import OpenIsr.Fuse.Disk
import OpenIsr.Fuse.Sync
import OpenIsr.Base.Blocks
import OpenIsr.Crypto.Hmac
import OpenIsr.Crypto.Pkcs5
import OpenIsr.Util.RoundTrip
import OpenIsr.Util.Convergent
import OpenIsr.Crypto.LzfStreamEncode
import OpenIsr.Crypto.LzfStreamGrammar
import OpenIsr.Crypto.LzfStreamBuffers
import OpenIsr.Lock.Lockfile
import OpenIsr.Lock.Nonce
import OpenIsr.Cache.Keyring
import OpenIsr.Cache.Buffer
import OpenIsr.Cache.FailedUpdate
import OpenIsr.Server.CheckParcel
import OpenIsr.Server.History
import OpenIsr.Cache.Shm
import OpenIsr.Cache.Splice
import OpenIsr.Cache.Parameters
import OpenIsr.Fuse.Session
import OpenIsr.Fuse.Transfer
import OpenIsr.Fuse.Deadlock
import OpenIsr.Hoard.Hoarding
import OpenIsr.Hoard.Refs
import OpenIsr.Hoard.Threads
import OpenIsr.Hoard.CheckHoard
import OpenIsr.Hoard.CompactBatch
import OpenIsr.Hoard.CompactSafe
import OpenIsr.Hoard.CompactPacked
import OpenIsr.Hoard.Wrap
import OpenIsr.Tools.Blobtool
import OpenIsr.Tools.Compression
import OpenIsr.Tools.Import
import OpenIsr.Tools.Export
import OpenIsr.Client.Hosts
import OpenIsr.Client.Remote
import OpenIsr.Client.Safety
import OpenIsr.Client.Session
import OpenIsr.Cmdline.Grammar
