import Mathlib.Init

namespace MomRpc

inductive RpcError
  | timeout
  | connectionLost
  | serialization (details : String)
  | transport (details : String)
  | transportRetryable (details : String)
  | handlerNotFound (method : String)
  | invalidResponse
  | invalidRequest
  | missingResponseTopic
  | invalidMode (details : String)
  | missingConfig (details : String)
  | configConflict (details : String)
  deriving DecidableEq, Repr

end MomRpc
