import Mathlib.Tactic.Common

/-!
# Application errors

`AppError` of `src/src/error.rs`, with the text that `Display` gives and the
status and code that `into_response` answers.  A database error carries the
text of the `sqlx` error and whether that error is `RowNotFound`.
-/

namespace Tinkiva

/-- `sqlx::Error`, as far as the program looks into it. -/
structure SqlxError where
  rowNotFound : Bool
  text : String
  deriving DecidableEq, Repr

/-- `AppError`. -/
inductive AppError where
  | invalidDatabaseName
  | capacityBusy
  | overloaded
  | unauthorized
  | invalidRequest (message : String)
  | database (error : SqlxError)
  | internal (source : String)
  deriving DecidableEq, Repr

namespace AppError

/-- The `#[error(..)]` texts. -/
def toString : AppError → String
  | invalidDatabaseName =>
    "invalid database name: use 1-64 ASCII letters, numbers, '-' or '_'"
  | capacityBusy => "all open databases are currently busy"
  | overloaded => "too many concurrent requests; retry shortly"
  | unauthorized => "unauthorized"
  | invalidRequest message => "invalid request: " ++ message
  | database error => "database error: " ++ error.text
  | internal _ => "internal server error"

/-- The status and the code of `into_response`. -/
def statusCode : AppError → Nat × String
  | invalidDatabaseName | invalidRequest _ => (400, "invalid_request")
  | capacityBusy => (503, "capacity_busy")
  | overloaded => (429, "overloaded")
  | unauthorized => (401, "unauthorized")
  | database error =>
    if error.rowNotFound then (404, "not_found") else (422, "database_error")
  | internal _ => (500, "internal_error")

end AppError

end Tinkiva
