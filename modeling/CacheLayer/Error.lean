/-!
# Cache errors

Why an operation of a cache failed. Errors are plain values: one load outcome can be handed to every
caller that waits for it. `CacheError.message` is the one place where their wording is written.
-/

namespace CacheLayer

/-- Why an operation failed. -/
inductive CacheError where
  /-- The loader failed, through its answer or while it was being called. -/
  | loader (message : String)
  /-- The loader or a writer broke its contract: it broke off, or was dropped before it answered. -/
  | contractViolation (message : String)
  /-- The backing store failed. -/
  | backend (message : String)
  /-- Members of a batch failed. -/
  | aggregate (errors : List CacheError)
  /-- The key cannot be used on the wire. -/
  | invalidKey (message : String)
  /-- The encoded value is larger than an item may be. -/
  | valueTooLarge (size limit : Nat)
  /-- A payload could not be compressed or decompressed. -/
  | compression (message : String)
  /-- A value could not be encoded or decoded. -/
  | transcode (message : String)
  /-- A configuration value could not be understood. -/
  | config (message : String)

namespace CacheError

mutual

/-- The error in words. -/
def message : CacheError → String
  | loader m => "Loader error: " ++ m
  | contractViolation m => "Loader contract violation: " ++ m
  | backend m => "Backend error: " ++ m
  | aggregate es =>
    toString es.length ++ " of the batch operations failed: " ++ "; ".intercalate (messages es)
  | invalidKey m => "Invalid key: " ++ m
  | valueTooLarge size limit =>
    "Value of " ++ toString size ++ " bytes exceeds maximum size of " ++ toString limit ++ " bytes"
  | compression m => "Compression error: " ++ m
  | transcode m => "Transcode error: " ++ m
  | config m => "Invalid configuration: " ++ m

/-- The errors in words, one by one. -/
def messages : List CacheError → List String
  | [] => []
  | e :: es => e.message :: messages es

end

mutual

/-- The single errors inside an aggregate, however deep; of any other error, the error itself. -/
def causes : CacheError → List CacheError
  | aggregate es => causesOf es
  | loader m => [loader m]
  | contractViolation m => [contractViolation m]
  | backend m => [backend m]
  | invalidKey m => [invalidKey m]
  | valueTooLarge size limit => [valueTooLarge size limit]
  | compression m => [compression m]
  | transcode m => [transcode m]
  | config m => [config m]

/-- The single errors inside each of the errors, in order. -/
def causesOf : List CacheError → List CacheError
  | [] => []
  | e :: es => e.causes ++ causesOf es

end

instance : ToString CacheError := ⟨message⟩

instance : Inhabited CacheError := ⟨.backend ""⟩

end CacheError

/-- What an operation gives to whoever waits for it. -/
abbrev Outcome (α : Type) := Except CacheError α

end CacheLayer
