import RowStore.Bytes.Hex
import RowStore.Config
import RowStore.Lock.Alone
import RowStore.Store.Complete
import RowStore.Store.Delete
import RowStore.Store.Insert
import RowStore.Store.Scan
import RowStore.Proofs.Lock.Sections
import RowStore.Proofs.Page.RoundTrip
import RowStore.Proofs.Store.Rejecting
import RowStore.Proofs.Store.Simulating
import RowStore.Proofs.Page.Formed
import RowStore.Proofs.Store.Chronicle
import RowStore.Proofs.Store.WriteAhead
import RowStore.Proofs.Store.Aborting
import RowStore.Proofs.Row.Storing
import RowStore.Proofs.Row.Decoding
import RowStore.Proofs.Page.Rewriting
import RowStore.Proofs.Store.Rewriting
import RowStore.Proofs.Lock.Reclaiming
import RowStore.Proofs.Store.Reloading
import RowStore.Proofs.Store.Loading
import RowStore.Proofs.Store.Ending
import RowStore.Proofs.Store.Placing
import RowStore.Proofs.Store.Refusing
import RowStore.Proofs.Store.Threading
import RowStore.Proofs.Store.Wasting
import RowStore.Proofs.Store.Growing
import RowStore.Proofs.Store.Scanning
import RowStore.Proofs.Store.Keeping
import RowStore.Proofs.Store.Passing
import RowStore.Proofs.Page.SlotMap
import RowStore.Proofs.Page.Accepting
import RowStore.Proofs.Lock.Table
import RowStore.Proofs.Store.Commuting
import RowStore.Proofs.Store.Paging
import RowStore.Proofs.Store.Flushing
import RowStore.Proofs.Lock.Abandoning
import RowStore.Proofs.Catalog.Naming
import RowStore.Proofs.Log.Forcing
import RowStore.Proofs.Page.Capacity
import RowStore.Proofs.Pool.Arrivals
