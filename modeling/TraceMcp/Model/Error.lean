/-!
# Application errors

`src/error.rs`: an error is a stable code, a reason and an optional next
action. `Result α` is the source's `Result<T>`.
-/

namespace TraceMcp

/-- `ErrorCode`, in the source's order. -/
inductive ErrorCode
  | ptUnavailable
  | permissionDenied
  | unsupportedPerf
  | unsupportedPtConfig
  | invalidArgument
  | sessionBusy
  | busy
  | notReady
  | notFound
  | detailNotReady
  | decodeFailed
  | missingImage
  | limitExceeded
  | incomparable
  | cancelled
  deriving DecidableEq

/-- `ErrorCode::as_str`. -/
def ErrorCode.asStr : ErrorCode → String
  | .ptUnavailable => "PT_UNAVAILABLE"
  | .permissionDenied => "PERMISSION_DENIED"
  | .unsupportedPerf => "UNSUPPORTED_PERF"
  | .unsupportedPtConfig => "UNSUPPORTED_PT_CONFIG"
  | .invalidArgument => "INVALID_ARGUMENT"
  | .sessionBusy => "SESSION_BUSY"
  | .busy => "BUSY"
  | .notReady => "NOT_READY"
  | .notFound => "NOT_FOUND"
  | .detailNotReady => "DETAIL_NOT_READY"
  | .decodeFailed => "DECODE_FAILED"
  | .missingImage => "MISSING_IMAGE"
  | .limitExceeded => "LIMIT_EXCEEDED"
  | .incomparable => "INCOMPARABLE"
  | .cancelled => "CANCELLED"

/-- `Error`: what every fallible operation of the service reports. -/
structure Error where
  code : ErrorCode
  reason : String
  nextAction : Option String
  deriving DecidableEq

abbrev Result (α : Type) := Except Error α

namespace Error

def new (code : ErrorCode) (reason : String) : Error := ⟨code, reason, none⟩

def withNext (e : Error) (next : String) : Error := { e with nextAction := some next }

/-- The error as text. -/
def display (e : Error) : String := e.code.asStr ++ ": " ++ e.reason

def invalidArgument (reason : String) : Error := new .invalidArgument reason

def notFound (reason : String) : Error := new .notFound reason

def mkBusy (reason : String) : Error := new .busy reason

def limit (reason : String) : Error := new .limitExceeded reason

def decodeFailed (reason : String) : Error := new .decodeFailed reason

def cancelled (reason : String) : Error := new .cancelled reason

end Error

end TraceMcp
