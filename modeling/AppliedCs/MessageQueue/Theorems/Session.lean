import AppliedCs.MessageQueue.Theorems.Transaction

namespace MessageQueue

open Transition ProducerState AList

variable {c : TransactionCoordinator} {producerId : ProducerId} {epoch : ProducerEpoch}

namespace TransactionCoordinator

end TransactionCoordinator

end MessageQueue
