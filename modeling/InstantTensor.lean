import InstantTensor.ZeroCopy
import InstantTensor.Requests
import InstantTensor.InFlight
import InstantTensor.Windows
import InstantTensor.Collectives
import InstantTensor.Overlooked
import InstantTensor.Completions
import InstantTensor.Agreement
import InstantTensor.Uring
import InstantTensor.Header
import InstantTensor.Generators
import InstantTensor.Alignment
import InstantTensor.Overlap
import InstantTensor.Splitting
import InstantTensor.HostBuffers
import InstantTensor.Isolation
import InstantTensor.HandleTable
import InstantTensor.Reaping
import InstantTensor.Delivery
import InstantTensor.Returns
import InstantTensor.Yields
import InstantTensor.Coverage
import InstantTensor.SingleThread
import InstantTensor.Metadata
import InstantTensor.RoundTrip
