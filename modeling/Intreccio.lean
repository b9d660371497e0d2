import Intreccio.Codec.Cursor
import Intreccio.Storage.BoltRefinement
import Intreccio.Graph.NullProperties
import Intreccio.Graph.PathSearch
import Intreccio.Graph.Interleavings
import Intreccio.Exec.Truth
import Intreccio.Exec.Extremes
import Intreccio.Exec.Coincidence
import Intreccio.Exec.PropertyScans
import Intreccio.Exec.Trails
import Intreccio.Exec.Rebinding
import Intreccio.Exec.GroupKeys
import Intreccio.Exec.WithTail
import Intreccio.Exec.OrderScope
import Intreccio.Exec.Freshness
import Intreccio.Exec.SchemaNames
import Intreccio.Exec.Classification
import Intreccio.Cluster.Forwarding
import Intreccio.Cluster.ApplyWrite
import Intreccio.Cluster.Linearizable
