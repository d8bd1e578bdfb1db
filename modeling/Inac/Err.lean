/-!
# Return codes

libinac reports a failure as an `ina_rc_t`: a packed word of a subject, a negation bit and an
adjective (`include/libinac/error.h`). A function that fails in the code fails here with the
code it packs, one constructor per combination the modelled functions return; `INA_SUCCESS` is
the `ok` side of `Except`.
-/

namespace Inac

/-- The `ina_rc_t` values the modelled functions fail with, under the source's words. -/
inductive Err where
  | invalidArgument  -- `INA_ERR_INVALID_ARGUMENT`, what `INA_VERIFY` returns
  | invalid  -- `INA_ERR_INVALID`
  | invalidPattern  -- `INA_ERR_INVALID_PATTERN`
  | notFound  -- `INA_ERR_NOT_FOUND`
  | endOf  -- `INA_ERR_END_OF`
  | notExists  -- `INA_ERR_NOT_EXISTS`
  | empty  -- `INA_ERR_EMPTY`
  | outOfMemory  -- `INA_ERR_OUT_OF_MEMORY`
  | poolFull  -- `INA_ERR_POOL_FULL`
  | sizeInvalid  -- `INA_ES_SIZE | INA_ERR_INVALID`
  | bufferTooSmall  -- `INA_ES_BUFFER | INA_ERR_TOO_SMALL`
  | bufferOverflow  -- `INA_ES_BUFFER | INA_ERR_OVERFLOW`
  | stateInvalid  -- `INA_ES_STATE | INA_ERR_INVALID`
  | inputInvalid  -- `INA_ES_INPUT | INA_ERR_INVALID`
  | positionOutOfRange  -- `INA_ES_POSITION | INA_ERR_OUT_OF_RANGE`
  | operationInvalid  -- `INA_ERR_OPERATION_INVALID`
  | operationFailed  -- `INA_ERR_OPERATION_FAILED`
  | processNotCreated  -- `INA_ES_PROCESS | INA_ERR_NOT_CREATED`
  | processNotStopped  -- `INA_ES_PROCESS | INA_ERR_NOT_STOPPED`
  | memoryNotAligned  -- `INA_ES_MEMORY | INA_ERR_NOT_ALIGNED`
  | handleInvalid  -- `INA_ES_HANDLE | INA_ERR_INVALID`
  | argumentInvalid  -- `INA_ES_ARGUMENT | INA_ERR_INVALID`
  | versionInvalid  -- `INA_ES_VERSION | INA_ERR_INVALID`
  | limitExceeded  -- `INA_ES_LIMIT | INA_ERR_EXCEEDED`
  | descriptorInUse  -- `INA_ES_DESCRIPTOR | INA_ERR_IN_USE`
  | overflow  -- `INA_ERR_OVERFLOW`
  | writeFailed  -- `INA_ES_WRITE | INA_ERR_FAILED`
  | enumerationEmpty  -- `INA_ES_ENUMERATION | INA_ERR_EMPTY`
  | enumerationEndOf  -- `INA_ERR_END_OF | INA_ES_ENUMERATION`
  | keyNotExists  -- `INA_ES_KEY | INA_ERR_NOT_EXISTS`
  | sectionEmpty  -- `INA_ES_SECTION | INA_ERR_EMPTY`
  | sectionNotExists  -- `INA_ES_SECTION | INA_ERR_NOT_EXISTS`
  | configurationEmpty  -- `INA_ES_CONFIGURATION | INA_ERR_EMPTY`
  | scriptFailed  -- `INA_ES_SCRIPT | INA_ERR_FAILED`
  | optionInvalid  -- `INA_ES_OPTION | INA_ERR_INVALID`
  | optionNotExists  -- `INA_ES_OPTION | INA_ERR_NOT_EXISTS`
  | compressionNotInitialized  -- `INA_ES_COMPRESSION | INA_ERR_NOT_INITIALIZED`
  | compressionFailed  -- `INA_ES_COMPRESSION | INA_ERR_FAILED`
  | decompressionNotInitialized  -- `INA_ES_DECOMPRESSION | INA_ERR_NOT_INITIALIZED`
  | decompressionFailed  -- `INA_ES_DECOMPRESSION | INA_ERR_FAILED`
  | tryAgain  -- `INA_ERR_TRY_AGAIN`
  deriving DecidableEq, Repr

end Inac
