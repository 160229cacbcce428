import Pgrust.XidOrder

/-!
The members of a multixact: transactions, each with the strength of its lock or update.
-/
namespace Heap

open XidOrder

inductive MultiXactStatus
  | forKeyShare
  | forShare
  | forNoKeyUpdate
  | forUpdate
  | noKeyUpdate
  | update
  deriving DecidableEq

/-- `ISUPDATE_from_mxstatus`. -/
def MultiXactStatus.isUpdate : MultiXactStatus → Bool
  | noKeyUpdate | update => true
  | _ => false

structure MultiXactMember where
  xid : TransactionId
  status : MultiXactStatus

end Heap
