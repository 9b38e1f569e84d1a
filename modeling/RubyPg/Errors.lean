import Mathlib.Logic.Relation
import Mathlib.Tactic.SplitIfs

/-!
# The classes of errors

`ext/pg_errors.c` with the class definitions of `ext/errorcodes.def`, and `pg_result_check` that raises them.
A `rescue` for the class of a two character SQLSTATE class catches exactly the errors of that SQLSTATE
class, those included that the table does not know (`rescue_catches_class`).
-/

namespace RubyPg.Errors
set_option autoImplicit false

/-- The error classes: those of `pg_errors.c`, then those of `errorcodes.def`. -/
inductive Klass where
  | standardError | error | serverError | unableToSend | connectionBad | invalidResultStatus | noResultError
  | invalidChangeOfResultFields | sqlStatementNotYetComplete | connectionException | connectionDoesNotExist
  | connectionFailure | sqlclientUnableToEstablishSqlconnection | sqlserverRejectedEstablishmentOfSqlconnection
  | transactionResolutionUnknown | protocolViolation | triggeredActionException | featureNotSupported
  | invalidTransactionInitiation | locatorException | lEInvalidSpecification | invalidGrantor | invalidGrantOperation
  | invalidRoleSpecification | diagnosticsException | stackedDiagnosticsAccessedWithoutActiveHandler
  | invalidArgumentForXquery | caseNotFound | cardinalityViolation | dataException | arraySubscriptError
  | characterNotInRepertoire | datetimeFieldOverflow | divisionByZero | errorInAssignment | escapeCharacterConflict
  | indicatorOverflow | intervalFieldOverflow | invalidArgumentForLog | invalidArgumentForNtile
  | invalidArgumentForNthValue | invalidArgumentForPowerFunction | invalidArgumentForWidthBucketFunction
  | invalidCharacterValueForCast | invalidDatetimeFormat | invalidEscapeCharacter | invalidEscapeOctet
  | invalidEscapeSequence | nonstandardUseOfEscapeCharacter | invalidIndicatorParameterValue | invalidParameterValue
  | invalidPrecedingOrFollowingSize | invalidRegularExpression | invalidRowCountInLimitClause
  | invalidRowCountInResultOffsetClause | invalidTablesampleArgument | invalidTablesampleRepeat
  | invalidTimeZoneDisplacementValue | invalidUseOfEscapeCharacter | mostSpecificTypeMismatch | nullValueNotAllowed
  | nullValueNoIndicatorParameter | numericValueOutOfRange | sequenceGeneratorLimitExceeded
  | stringDataLengthMismatch | stringDataRightTruncation | substringError | trimError | unterminatedCString
  | zeroLengthCharacterString | floatingPointException | invalidTextRepresentation | invalidBinaryRepresentation
  | badCopyFileFormat | untranslatableCharacter | notAnXmlDocument | invalidXmlDocument | invalidXmlContent
  | invalidXmlComment | invalidXmlProcessingInstruction | duplicateJsonObjectKeyValue
  | invalidArgumentForSqlJsonDatetimeFunction | invalidJsonText | invalidSqlJsonSubscript | moreThanOneSqlJsonItem
  | noSqlJsonItem | nonNumericSqlJsonItem | nonUniqueKeysInAJsonObject | singletonSqlJsonItemRequired
  | sqlJsonArrayNotFound | sqlJsonMemberNotFound | sqlJsonNumberNotFound | sqlJsonObjectNotFound
  | tooManyJsonArrayElements | tooManyJsonObjectMembers | sqlJsonScalarRequired | sqlJsonItemCannotBeCastToTargetType
  | integrityConstraintViolation | restrictViolation | notNullViolation | foreignKeyViolation | uniqueViolation
  | checkViolation | exclusionViolation | invalidCursorState | invalidTransactionState | activeSqlTransaction
  | branchTransactionAlreadyActive | heldCursorRequiresSameIsolationLevel
  | inappropriateAccessModeForBranchTransaction | inappropriateIsolationLevelForBranchTransaction
  | noActiveSqlTransactionForBranchTransaction | readOnlySqlTransaction | schemaAndDataStatementMixingNotSupported
  | noActiveSqlTransaction | inFailedSqlTransaction | idleInTransactionSessionTimeout | transactionTimeout
  | invalidSqlStatementName | triggeredDataChangeViolation | invalidAuthorizationSpecification | invalidPassword
  | dependentPrivilegeDescriptorsStillExist | dependentObjectsStillExist | invalidTransactionTermination
  | sqlRoutineException | sREFunctionExecutedNoReturnStatement | sREModifyingSqlDataNotPermitted
  | sREProhibitedSqlStatementAttempted | sREReadingSqlDataNotPermitted | invalidCursorName | externalRoutineException
  | eREContainingSqlNotPermitted | eREModifyingSqlDataNotPermitted | eREProhibitedSqlStatementAttempted
  | eREReadingSqlDataNotPermitted | externalRoutineInvocationException | eRIEInvalidSqlstateReturned
  | eRIENullValueNotAllowed | eRIETriggerProtocolViolated | eRIESrfProtocolViolated
  | eRIEEventTriggerProtocolViolated | savepointException | sEInvalidSpecification | invalidCatalogName
  | invalidSchemaName | transactionRollback | tRIntegrityConstraintViolation | tRSerializationFailure
  | tRStatementCompletionUnknown | tRDeadlockDetected | syntaxErrorOrAccessRuleViolation | syntaxError
  | insufficientPrivilege | cannotCoerce | groupingError | windowingError | invalidRecursion | invalidForeignKey
  | invalidName | nameTooLong | reservedName | datatypeMismatch | indeterminateDatatype | collationMismatch
  | indeterminateCollation | wrongObjectType | generatedAlways | undefinedColumn | undefinedFunction | undefinedTable
  | undefinedParameter | undefinedObject | duplicateColumn | duplicateCursor | duplicateDatabase | duplicateFunction
  | duplicatePstatement | duplicateSchema | duplicateTable | duplicateAlias | duplicateObject | ambiguousColumn
  | ambiguousFunction | ambiguousParameter | ambiguousAlias | invalidColumnReference | invalidColumnDefinition
  | invalidCursorDefinition | invalidDatabaseDefinition | invalidFunctionDefinition | invalidPstatementDefinition
  | invalidSchemaDefinition | invalidTableDefinition | invalidObjectDefinition | withCheckOptionViolation
  | insufficientResources | diskFull | outOfMemory | tooManyConnections | configurationLimitExceeded
  | programLimitExceeded | statementTooComplex | tooManyColumns | tooManyArguments | objectNotInPrerequisiteState
  | objectInUse | cantChangeRuntimeParam | lockNotAvailable | unsafeNewEnumValueUsage | operatorIntervention
  | queryCanceled | adminShutdown | crashShutdown | cannotConnectNow | databaseDropped | idleSessionTimeout
  | systemError | ioError | undefinedFile | duplicateFile | fileNameTooLong | configFileError | lockFileExists
  | fdwError | fdwColumnNameNotFound | fdwDynamicParameterValueNeeded | fdwFunctionSequenceError
  | fdwInconsistentDescriptorInformation | fdwInvalidAttributeValue | fdwInvalidColumnName | fdwInvalidColumnNumber
  | fdwInvalidDataType | fdwInvalidDataTypeDescriptors | fdwInvalidDescriptorFieldIdentifier | fdwInvalidHandle
  | fdwInvalidOptionIndex | fdwInvalidOptionName | fdwInvalidStringLengthOrBufferLength | fdwInvalidStringFormat
  | fdwInvalidUseOfNullPointer | fdwTooManyHandles | fdwOutOfMemory | fdwNoSchemas | fdwOptionNameNotFound
  | fdwReplyHandle | fdwSchemaNotFound | fdwTableNotFound | fdwUnableToCreateExecution | fdwUnableToCreateReply
  | fdwUnableToEstablishConnection | plpgsqlError | raiseException | noDataFound | tooManyRows | assertFailure
  | internalError | dataCorrupted | indexCorrupted
deriving DecidableEq, Repr

/-- An SQLSTATE, or the first two characters of one. -/
abbrev Code := List Char

/-- The constants below `PG` with their superclasses, and `PG::ERROR_CLASSES`. -/
structure Classes where
  superclass : List (Klass × Klass)
  hErrors : List (Code × Klass)
deriving DecidableEq, Repr

/-- `rb_define_class_under( rb_mPG, name, baseclass )`: an existing class must have the same superclass. -/
def defineClassUnder (classes : Classes) (name baseclass : Klass) : Option Classes :=
  match classes.superclass.lookup name with
  | none => some { classes with superclass := (name, baseclass) :: classes.superclass }
  | some other => if other = baseclass then some classes else none

/-- `define_error_class`: an unknown code of the base class gives `nil`, which is no class. -/
def defineErrorClass (classes : Classes) (name : Klass) (baseclassCode : Option Code) : Option Classes :=
  match baseclassCode with
  | none => defineClassUnder classes name .serverError
  | some code => (classes.hErrors.lookup code).bind (defineClassUnder classes name)

/-- `register_error_class`. -/
def registerErrorClass (classes : Classes) (code : Code) (name : Klass) : Classes :=
  { classes with hErrors := (code, name) :: classes.hErrors }

/-- A block of `errorcodes.def`: the name, the code of the base class, and the codes to register. -/
structure Definition where
  name : Klass
  baseclassCode : Option Code
  codes : List Code
deriving DecidableEq, Repr

def define (name : Klass) (baseclassCode : Option String) (codes : List String) : Definition :=
  ⟨name, baseclassCode.map String.toList, codes.map String.toList⟩

/-- `errorcodes.def`. -/
def errorcodes : List Definition := [
  define .sqlStatementNotYetComplete none ["03000", "03"],
  define .connectionException none ["08000", "08"],
  define .connectionDoesNotExist (some "08") ["08003"],
  define .connectionFailure (some "08") ["08006"],
  define .sqlclientUnableToEstablishSqlconnection (some "08") ["08001"],
  define .sqlserverRejectedEstablishmentOfSqlconnection (some "08") ["08004"],
  define .transactionResolutionUnknown (some "08") ["08007"],
  define .protocolViolation (some "08") ["08P01"],
  define .triggeredActionException none ["09000", "09"],
  define .featureNotSupported none ["0A000", "0A"],
  define .invalidTransactionInitiation none ["0B000", "0B"],
  define .locatorException none ["0F000", "0F"],
  define .lEInvalidSpecification (some "0F") ["0F001"],
  define .invalidGrantor none ["0L000", "0L"],
  define .invalidGrantOperation (some "0L") ["0LP01"],
  define .invalidRoleSpecification none ["0P000", "0P"],
  define .diagnosticsException none ["0Z000", "0Z"],
  define .stackedDiagnosticsAccessedWithoutActiveHandler (some "0Z") ["0Z002"],
  define .invalidArgumentForXquery none ["10608", "10"],
  define .caseNotFound none ["20000", "20"],
  define .cardinalityViolation none ["21000", "21"],
  define .dataException none ["22000", "22"],
  define .arraySubscriptError (some "22") ["2202E"],
  define .characterNotInRepertoire (some "22") ["22021"],
  define .datetimeFieldOverflow (some "22") ["22008"],
  define .divisionByZero (some "22") ["22012"],
  define .errorInAssignment (some "22") ["22005"],
  define .escapeCharacterConflict (some "22") ["2200B"],
  define .indicatorOverflow (some "22") ["22022"],
  define .intervalFieldOverflow (some "22") ["22015"],
  define .invalidArgumentForLog (some "22") ["2201E"],
  define .invalidArgumentForNtile (some "22") ["22014"],
  define .invalidArgumentForNthValue (some "22") ["22016"],
  define .invalidArgumentForPowerFunction (some "22") ["2201F"],
  define .invalidArgumentForWidthBucketFunction (some "22") ["2201G"],
  define .invalidCharacterValueForCast (some "22") ["22018"],
  define .invalidDatetimeFormat (some "22") ["22007"],
  define .invalidEscapeCharacter (some "22") ["22019"],
  define .invalidEscapeOctet (some "22") ["2200D"],
  define .invalidEscapeSequence (some "22") ["22025"],
  define .nonstandardUseOfEscapeCharacter (some "22") ["22P06"],
  define .invalidIndicatorParameterValue (some "22") ["22010"],
  define .invalidParameterValue (some "22") ["22023"],
  define .invalidPrecedingOrFollowingSize (some "22") ["22013"],
  define .invalidRegularExpression (some "22") ["2201B"],
  define .invalidRowCountInLimitClause (some "22") ["2201W"],
  define .invalidRowCountInResultOffsetClause (some "22") ["2201X"],
  define .invalidTablesampleArgument (some "22") ["2202H"],
  define .invalidTablesampleRepeat (some "22") ["2202G"],
  define .invalidTimeZoneDisplacementValue (some "22") ["22009"],
  define .invalidUseOfEscapeCharacter (some "22") ["2200C"],
  define .mostSpecificTypeMismatch (some "22") ["2200G"],
  define .nullValueNotAllowed (some "22") ["22004"],
  define .nullValueNoIndicatorParameter (some "22") ["22002"],
  define .numericValueOutOfRange (some "22") ["22003"],
  define .sequenceGeneratorLimitExceeded (some "22") ["2200H"],
  define .stringDataLengthMismatch (some "22") ["22026"],
  define .stringDataRightTruncation (some "22") ["22001"],
  define .substringError (some "22") ["22011"],
  define .trimError (some "22") ["22027"],
  define .unterminatedCString (some "22") ["22024"],
  define .zeroLengthCharacterString (some "22") ["2200F"],
  define .floatingPointException (some "22") ["22P01"],
  define .invalidTextRepresentation (some "22") ["22P02"],
  define .invalidBinaryRepresentation (some "22") ["22P03"],
  define .badCopyFileFormat (some "22") ["22P04"],
  define .untranslatableCharacter (some "22") ["22P05"],
  define .notAnXmlDocument (some "22") ["2200L"],
  define .invalidXmlDocument (some "22") ["2200M"],
  define .invalidXmlContent (some "22") ["2200N"],
  define .invalidXmlComment (some "22") ["2200S"],
  define .invalidXmlProcessingInstruction (some "22") ["2200T"],
  define .duplicateJsonObjectKeyValue (some "22") ["22030"],
  define .invalidArgumentForSqlJsonDatetimeFunction (some "22") ["22031"],
  define .invalidJsonText (some "22") ["22032"],
  define .invalidSqlJsonSubscript (some "22") ["22033"],
  define .moreThanOneSqlJsonItem (some "22") ["22034"],
  define .noSqlJsonItem (some "22") ["22035"],
  define .nonNumericSqlJsonItem (some "22") ["22036"],
  define .nonUniqueKeysInAJsonObject (some "22") ["22037"],
  define .singletonSqlJsonItemRequired (some "22") ["22038"],
  define .sqlJsonArrayNotFound (some "22") ["22039"],
  define .sqlJsonMemberNotFound (some "22") ["2203A"],
  define .sqlJsonNumberNotFound (some "22") ["2203B"],
  define .sqlJsonObjectNotFound (some "22") ["2203C"],
  define .tooManyJsonArrayElements (some "22") ["2203D"],
  define .tooManyJsonObjectMembers (some "22") ["2203E"],
  define .sqlJsonScalarRequired (some "22") ["2203F"],
  define .sqlJsonItemCannotBeCastToTargetType (some "22") ["2203G"],
  define .integrityConstraintViolation none ["23000", "23"],
  define .restrictViolation (some "23") ["23001"],
  define .notNullViolation (some "23") ["23502"],
  define .foreignKeyViolation (some "23") ["23503"],
  define .uniqueViolation (some "23") ["23505"],
  define .checkViolation (some "23") ["23514"],
  define .exclusionViolation (some "23") ["23P01"],
  define .invalidCursorState none ["24000", "24"],
  define .invalidTransactionState none ["25000", "25"],
  define .activeSqlTransaction (some "25") ["25001"],
  define .branchTransactionAlreadyActive (some "25") ["25002"],
  define .heldCursorRequiresSameIsolationLevel (some "25") ["25008"],
  define .inappropriateAccessModeForBranchTransaction (some "25") ["25003"],
  define .inappropriateIsolationLevelForBranchTransaction (some "25") ["25004"],
  define .noActiveSqlTransactionForBranchTransaction (some "25") ["25005"],
  define .readOnlySqlTransaction (some "25") ["25006"],
  define .schemaAndDataStatementMixingNotSupported (some "25") ["25007"],
  define .noActiveSqlTransaction (some "25") ["25P01"],
  define .inFailedSqlTransaction (some "25") ["25P02"],
  define .idleInTransactionSessionTimeout (some "25") ["25P03"],
  define .transactionTimeout (some "25") ["25P04"],
  define .invalidSqlStatementName none ["26000", "26"],
  define .triggeredDataChangeViolation none ["27000", "27"],
  define .invalidAuthorizationSpecification none ["28000", "28"],
  define .invalidPassword (some "28") ["28P01"],
  define .dependentPrivilegeDescriptorsStillExist none ["2B000", "2B"],
  define .dependentObjectsStillExist (some "2B") ["2BP01"],
  define .invalidTransactionTermination none ["2D000", "2D"],
  define .sqlRoutineException none ["2F000", "2F"],
  define .sREFunctionExecutedNoReturnStatement (some "2F") ["2F005"],
  define .sREModifyingSqlDataNotPermitted (some "2F") ["2F002"],
  define .sREProhibitedSqlStatementAttempted (some "2F") ["2F003"],
  define .sREReadingSqlDataNotPermitted (some "2F") ["2F004"],
  define .invalidCursorName none ["34000", "34"],
  define .externalRoutineException none ["38000", "38"],
  define .eREContainingSqlNotPermitted (some "38") ["38001"],
  define .eREModifyingSqlDataNotPermitted (some "38") ["38002"],
  define .eREProhibitedSqlStatementAttempted (some "38") ["38003"],
  define .eREReadingSqlDataNotPermitted (some "38") ["38004"],
  define .externalRoutineInvocationException none ["39000", "39"],
  define .eRIEInvalidSqlstateReturned (some "39") ["39001"],
  define .eRIENullValueNotAllowed (some "39") ["39004"],
  define .eRIETriggerProtocolViolated (some "39") ["39P01"],
  define .eRIESrfProtocolViolated (some "39") ["39P02"],
  define .eRIEEventTriggerProtocolViolated (some "39") ["39P03"],
  define .savepointException none ["3B000", "3B"],
  define .sEInvalidSpecification (some "3B") ["3B001"],
  define .invalidCatalogName none ["3D000", "3D"],
  define .invalidSchemaName none ["3F000", "3F"],
  define .transactionRollback none ["40000", "40"],
  define .tRIntegrityConstraintViolation (some "40") ["40002"],
  define .tRSerializationFailure (some "40") ["40001"],
  define .tRStatementCompletionUnknown (some "40") ["40003"],
  define .tRDeadlockDetected (some "40") ["40P01"],
  define .syntaxErrorOrAccessRuleViolation none ["42000", "42"],
  define .syntaxError (some "42") ["42601"],
  define .insufficientPrivilege (some "42") ["42501"],
  define .cannotCoerce (some "42") ["42846"],
  define .groupingError (some "42") ["42803"],
  define .windowingError (some "42") ["42P20"],
  define .invalidRecursion (some "42") ["42P19"],
  define .invalidForeignKey (some "42") ["42830"],
  define .invalidName (some "42") ["42602"],
  define .nameTooLong (some "42") ["42622"],
  define .reservedName (some "42") ["42939"],
  define .datatypeMismatch (some "42") ["42804"],
  define .indeterminateDatatype (some "42") ["42P18"],
  define .collationMismatch (some "42") ["42P21"],
  define .indeterminateCollation (some "42") ["42P22"],
  define .wrongObjectType (some "42") ["42809"],
  define .generatedAlways (some "42") ["428C9"],
  define .undefinedColumn (some "42") ["42703"],
  define .undefinedFunction (some "42") ["42883"],
  define .undefinedTable (some "42") ["42P01"],
  define .undefinedParameter (some "42") ["42P02"],
  define .undefinedObject (some "42") ["42704"],
  define .duplicateColumn (some "42") ["42701"],
  define .duplicateCursor (some "42") ["42P03"],
  define .duplicateDatabase (some "42") ["42P04"],
  define .duplicateFunction (some "42") ["42723"],
  define .duplicatePstatement (some "42") ["42P05"],
  define .duplicateSchema (some "42") ["42P06"],
  define .duplicateTable (some "42") ["42P07"],
  define .duplicateAlias (some "42") ["42712"],
  define .duplicateObject (some "42") ["42710"],
  define .ambiguousColumn (some "42") ["42702"],
  define .ambiguousFunction (some "42") ["42725"],
  define .ambiguousParameter (some "42") ["42P08"],
  define .ambiguousAlias (some "42") ["42P09"],
  define .invalidColumnReference (some "42") ["42P10"],
  define .invalidColumnDefinition (some "42") ["42611"],
  define .invalidCursorDefinition (some "42") ["42P11"],
  define .invalidDatabaseDefinition (some "42") ["42P12"],
  define .invalidFunctionDefinition (some "42") ["42P13"],
  define .invalidPstatementDefinition (some "42") ["42P14"],
  define .invalidSchemaDefinition (some "42") ["42P15"],
  define .invalidTableDefinition (some "42") ["42P16"],
  define .invalidObjectDefinition (some "42") ["42P17"],
  define .withCheckOptionViolation none ["44000", "44"],
  define .insufficientResources none ["53000", "53"],
  define .diskFull (some "53") ["53100"],
  define .outOfMemory (some "53") ["53200"],
  define .tooManyConnections (some "53") ["53300"],
  define .configurationLimitExceeded (some "53") ["53400"],
  define .programLimitExceeded none ["54000", "54"],
  define .statementTooComplex (some "54") ["54001"],
  define .tooManyColumns (some "54") ["54011"],
  define .tooManyArguments (some "54") ["54023"],
  define .objectNotInPrerequisiteState none ["55000", "55"],
  define .objectInUse (some "55") ["55006"],
  define .cantChangeRuntimeParam (some "55") ["55P02"],
  define .lockNotAvailable (some "55") ["55P03"],
  define .unsafeNewEnumValueUsage (some "55") ["55P04"],
  define .operatorIntervention none ["57000", "57"],
  define .queryCanceled (some "57") ["57014"],
  define .adminShutdown (some "57") ["57P01"],
  define .crashShutdown (some "57") ["57P02"],
  define .cannotConnectNow (some "57") ["57P03"],
  define .databaseDropped (some "57") ["57P04"],
  define .idleSessionTimeout (some "57") ["57P05"],
  define .systemError none ["58000", "58"],
  define .ioError (some "58") ["58030"],
  define .undefinedFile (some "58") ["58P01"],
  define .duplicateFile (some "58") ["58P02"],
  define .fileNameTooLong (some "58") ["58P03"],
  define .configFileError none ["F0000", "F0"],
  define .lockFileExists (some "F0") ["F0001"],
  define .fdwError none ["HV000", "HV"],
  define .fdwColumnNameNotFound (some "HV") ["HV005"],
  define .fdwDynamicParameterValueNeeded (some "HV") ["HV002"],
  define .fdwFunctionSequenceError (some "HV") ["HV010"],
  define .fdwInconsistentDescriptorInformation (some "HV") ["HV021"],
  define .fdwInvalidAttributeValue (some "HV") ["HV024"],
  define .fdwInvalidColumnName (some "HV") ["HV007"],
  define .fdwInvalidColumnNumber (some "HV") ["HV008"],
  define .fdwInvalidDataType (some "HV") ["HV004"],
  define .fdwInvalidDataTypeDescriptors (some "HV") ["HV006"],
  define .fdwInvalidDescriptorFieldIdentifier (some "HV") ["HV091"],
  define .fdwInvalidHandle (some "HV") ["HV00B"],
  define .fdwInvalidOptionIndex (some "HV") ["HV00C"],
  define .fdwInvalidOptionName (some "HV") ["HV00D"],
  define .fdwInvalidStringLengthOrBufferLength (some "HV") ["HV090"],
  define .fdwInvalidStringFormat (some "HV") ["HV00A"],
  define .fdwInvalidUseOfNullPointer (some "HV") ["HV009"],
  define .fdwTooManyHandles (some "HV") ["HV014"],
  define .fdwOutOfMemory (some "HV") ["HV001"],
  define .fdwNoSchemas (some "HV") ["HV00P"],
  define .fdwOptionNameNotFound (some "HV") ["HV00J"],
  define .fdwReplyHandle (some "HV") ["HV00K"],
  define .fdwSchemaNotFound (some "HV") ["HV00Q"],
  define .fdwTableNotFound (some "HV") ["HV00R"],
  define .fdwUnableToCreateExecution (some "HV") ["HV00L"],
  define .fdwUnableToCreateReply (some "HV") ["HV00M"],
  define .fdwUnableToEstablishConnection (some "HV") ["HV00N"],
  define .plpgsqlError none ["P0000", "P0"],
  define .raiseException (some "P0") ["P0001"],
  define .noDataFound (some "P0") ["P0002"],
  define .tooManyRows (some "P0") ["P0003"],
  define .assertFailure (some "P0") ["P0004"],
  define .internalError none ["XX000", "XX"],
  define .dataCorrupted (some "XX") ["XX001"],
  define .indexCorrupted (some "XX") ["XX002"]]

/-- The classes before the table. -/
def pgErrorClasses : Classes where
  superclass := [(.invalidChangeOfResultFields, .error), (.noResultError, .error), (.invalidResultStatus, .error),
    (.connectionBad, .error), (.unableToSend, .error), (.serverError, .error), (.error, .standardError)]
  hErrors := []

/-- A block of the table. -/
def Definition.run (classes : Classes) (d : Definition) : Option Classes :=
  (defineErrorClass classes d.name d.baseclassCode).map fun classes =>
    d.codes.foldl (fun classes code => registerErrorClass classes code d.name) classes

/-- `init_pg_errors`; `none` is an exception. -/
def initPgErrors : Option Classes := errorcodes.foldlM Definition.run pgErrorClasses

/-- The first two characters. -/
def sqlclass (sqlstate : Code) : Code := sqlstate.take 2

/-! ### The shape of the table -/

/-- A block defines a new class for an SQLSTATE class, or a class below that one. -/
def Definition.Grows (classes : Classes) (d : Definition) : Bool :=
  match d.baseclassCode, d.codes with
  | none, [code, cc] =>
    sqlclass code = cc && (classes.superclass.lookup d.name).isNone && (classes.hErrors.lookup cc).isNone &&
      d.name ≠ .standardError
  | some cc, [code] => sqlclass code = cc && code ≠ cc && d.name ≠ .standardError
  | _, _ => false

/-- The table can be loaded block by block. -/
def grows : Classes → List Definition → Bool
  | _, [] => true
  | classes, d :: rest =>
    d.Grows classes &&
      match d.run classes with
      | none => false
      | some classes => grows classes rest

theorem errorcodes_grow : grows pgErrorClasses errorcodes = true := by decide +kernel

/-- What the classes look like: one class below `ServerError` for each SQLSTATE class, and one below that for
each further SQLSTATE. -/
structure Tree (classes : Classes) : Prop where
  root : classes.superclass.lookup .serverError = some .error
  top : classes.superclass.lookup .error = some .standardError
  above : classes.superclass.lookup .standardError = none
  head : ∀ cc h, sqlclass cc = cc → classes.hErrors.lookup cc = some h → classes.superclass.lookup h = some .serverError
  member : ∀ code k, classes.hErrors.lookup code = some k →
    ∃ h, classes.hErrors.lookup (sqlclass code) = some h ∧ (k = h ∨ classes.superclass.lookup k = some h)
  sole : ∀ cc cc' h, sqlclass cc = cc → sqlclass cc' = cc' → classes.hErrors.lookup cc = some h →
    classes.hErrors.lookup cc' = some h → cc = cc'

@[simp] theorem sqlclass_sqlclass (code : Code) : sqlclass (sqlclass code) = sqlclass code := by
  simp [sqlclass, List.take_take]

theorem lookup_cons_ne {α β : Type} [BEq α] [LawfulBEq α] {k a : α} {b : β} {rest : List (α × β)} (other : a ≠ k) :
    ((k, b) :: rest).lookup a = rest.lookup a := by
  rw [List.lookup_cons, beq_false_of_ne other]

/-- Defining a class keeps the others. -/
theorem defineClassUnder_some {c c' : Classes} {name baseclass : Klass} (defined : defineClassUnder c name baseclass = some c') :
    c'.hErrors = c.hErrors ∧ c'.superclass.lookup name = some baseclass ∧
      (∀ k s, c.superclass.lookup k = some s → c'.superclass.lookup k = some s) ∧
      ∀ k, k ≠ name → c'.superclass.lookup k = c.superclass.lookup k := by
  unfold defineClassUnder at defined
  cases here : c.superclass.lookup name with
  | none =>
    rw [here] at defined
    cases defined
    refine ⟨rfl, List.lookup_cons_self, fun k s known => ?_, fun k other => lookup_cons_ne other⟩
    rw [lookup_cons_ne, known]
    rintro rfl
    rw [here] at known
    cases known
  | some other =>
    rw [here] at defined
    dsimp only at defined
    split_ifs at defined with same
    · cases defined
      exact ⟨rfl, same ▸ here, fun _ _ known => known, fun _ _ => rfl⟩

/-- The class of a new SQLSTATE class. -/
theorem Tree.runHead {c c' : Classes} {name : Klass} {code : Code} (tree : Tree c)
    (fresh : c.superclass.lookup name = none) (unknown : c.hErrors.lookup (sqlclass code) = none)
    (other : name ≠ .standardError)
    (defined : Definition.run c ⟨name, none, [code, sqlclass code]⟩ = some c') : Tree c' := by
  obtain ⟨c₁, under, rfl⟩ := Option.map_eq_some_iff.1 defined
  obtain ⟨same, superclass, keeps, others⟩ := defineClassUnder_some under
  simp only [List.foldl_cons, List.foldl_nil, registerErrorClass, same]
  -- what the new table finds
  have new : ∀ x k, ((sqlclass code, name) :: (code, name) :: c.hErrors).lookup x = some k →
      k = name ∧ sqlclass x = sqlclass code ∨ x ≠ sqlclass code ∧ x ≠ code ∧ c.hErrors.lookup x = some k := by
    intro x k found
    by_cases first : x = sqlclass code
    · subst first
      rw [List.lookup_cons_self] at found
      cases found
      exact .inl ⟨rfl, sqlclass_sqlclass code⟩
    · rw [lookup_cons_ne first] at found
      by_cases second : x = code
      · subst second
        rw [List.lookup_cons_self] at found
        cases found
        exact .inl ⟨rfl, rfl⟩
      · rw [lookup_cons_ne second] at found
        exact .inr ⟨first, second, found⟩
  have old : ∀ x h, sqlclass x = x → c.hErrors.lookup x = some h →
      ((sqlclass code, name) :: (code, name) :: c.hErrors).lookup x = some h := by
    intro x h short found
    have away : x ≠ sqlclass code := by
      rintro rfl
      rw [unknown] at found
      cases found
    rw [lookup_cons_ne away, lookup_cons_ne, found]
    rintro rfl
    exact away short.symm
  refine ⟨keeps _ _ tree.root, keeps _ _ tree.top, (others _ other.symm).trans tree.above, ?_, ?_, ?_⟩
  · intro cc h short found
    rcases new cc h found with ⟨rfl, -⟩ | ⟨-, -, found⟩
    · exact superclass
    · exact keeps _ _ (tree.head cc h short found)
  · intro x k found
    rcases new x k found with ⟨rfl, prefixed⟩ | ⟨-, -, found⟩
    · exact ⟨k, by rw [prefixed, List.lookup_cons_self], .inl rfl⟩
    · obtain ⟨h, head, placed⟩ := tree.member x k found
      exact ⟨h, old _ h (sqlclass_sqlclass x) head, placed.imp_right (keeps _ _)⟩
  · intro cc cc' h short short' found found'
    have clash : ∀ x, sqlclass x = x → c.hErrors.lookup x ≠ some name := by
      intro x short found
      have known := tree.head x name short found
      rw [fresh] at known
      cases known
    rcases new cc h found with ⟨rfl, here⟩ | ⟨-, -, before⟩
    · rcases new cc' h found' with ⟨-, here'⟩ | ⟨-, -, before'⟩
      · rw [← short, ← short', here, here']
      · exact absurd before' (clash cc' short')
    · rcases new cc' h found' with ⟨rfl, -⟩ | ⟨-, -, before'⟩
      · exact absurd before (clash cc short)
      · exact tree.sole cc cc' h short short' before before'

/-- A class below that of its SQLSTATE class. -/
theorem Tree.runMember {c c' : Classes} {name : Klass} {code : Code} (tree : Tree c) (long : code ≠ sqlclass code)
    (other : name ≠ .standardError)
    (defined : Definition.run c ⟨name, some (sqlclass code), [code]⟩ = some c') : Tree c' := by
  obtain ⟨c₁, under, rfl⟩ := Option.map_eq_some_iff.1 defined
  obtain ⟨h, head, under⟩ := Option.bind_eq_some_iff.1 under
  obtain ⟨same, superclass, keeps, others⟩ := defineClassUnder_some under
  simp only [List.foldl_cons, List.foldl_nil, registerErrorClass, same]
  have short_old : ∀ x, sqlclass x = x → ((code, name) :: c.hErrors).lookup x = c.hErrors.lookup x := by
    intro x short
    apply lookup_cons_ne
    rintro rfl
    exact long short.symm
  refine ⟨keeps _ _ tree.root, keeps _ _ tree.top, (others _ other.symm).trans tree.above, ?_, ?_, ?_⟩
  · intro cc h short found
    rw [short_old cc short] at found
    exact keeps _ _ (tree.head cc h short found)
  · intro x k found
    rw [short_old _ (sqlclass_sqlclass x)]
    by_cases here : x = code
    · subst here
      rw [List.lookup_cons_self] at found
      cases found
      exact ⟨h, head, .inr superclass⟩
    · rw [lookup_cons_ne here] at found
      obtain ⟨h, head, placed⟩ := tree.member x k found
      exact ⟨h, head, placed.imp_right (keeps _ _)⟩
  · intro cc cc' h short short' found found'
    rw [short_old cc short] at found
    rw [short_old cc' short'] at found'
    exact tree.sole cc cc' h short short' found found'

/-- A block keeps the shape. -/
theorem Tree.run {c c' : Classes} {d : Definition} (tree : Tree c) (fits : d.Grows c = true) (defined : d.run c = some c') :
    Tree c' := by
  obtain ⟨name, baseclassCode, codes⟩ := d
  unfold Definition.Grows at fits
  dsimp only at fits
  split at fits
  · simp only [Bool.and_eq_true, decide_eq_true_eq, Option.isNone_iff_eq_none] at fits
    obtain ⟨⟨⟨rfl, fresh⟩, unknown⟩, other⟩ := fits
    exact tree.runHead fresh unknown other defined
  · simp only [Bool.and_eq_true, decide_eq_true_eq] at fits
    obtain ⟨⟨rfl, long⟩, other⟩ := fits
    exact tree.runMember long other defined
  · cases fits

/-- Loading the table block by block ends in the shape. -/
theorem grows_tree {c : Classes} {ds : List Definition} (tree : Tree c) (fits : grows c ds = true) :
    ∃ c', ds.foldlM Definition.run c = some c' ∧ Tree c' := by
  induction ds generalizing c with
  | nil => exact ⟨c, rfl, tree⟩
  | cons d rest ih =>
    unfold grows at fits
    rw [Bool.and_eq_true] at fits
    cases run : d.run c with
    | none =>
      rw [run] at fits
      cases fits.2
    | some c₁ =>
      rw [run] at fits
      obtain ⟨c', loaded, shape⟩ := ih (tree.run fits.1 run) fits.2
      refine ⟨c', ?_, shape⟩
      rw [List.foldlM_cons, run]
      exact loaded

theorem pgErrorClasses_tree : Tree pgErrorClasses where
  root := rfl
  top := rfl
  above := rfl
  head _ _ _ found := by cases found
  member _ _ found := by cases found
  sole _ _ _ _ _ found := by cases found

/-- The table is loaded without an exception. -/
theorem init_pg_errors_loads : ∃ classes, initPgErrors = some classes ∧ Tree classes :=
  grows_tree pgErrorClasses_tree errorcodes_grow

/-! ### Raising -/

/-- The classes behind `init_pg_errors`. -/
def classes : Classes := initPgErrors.getD pgErrorClasses

theorem classes_tree : Tree classes := by
  obtain ⟨c, loaded, tree⟩ := init_pg_errors_loads
  rw [classes, loaded]
  exact tree

-- nothing below depends on the rows of the table
attribute [irreducible] initPgErrors

/-- `lookup_error_class`. -/
def lookupErrorClass (sqlstate : Option Code) : Klass :=
  match sqlstate with
  | none => .unableToSend
  | some sqlstate =>
    match classes.hErrors.lookup sqlstate with
    | some klass => klass
    | none =>
      match classes.hErrors.lookup (sqlclass sqlstate) with
      | some klass => klass
      | none => .serverError

/-- `ExecStatusType`. -/
inductive ExecStatusType where
  | emptyQuery | commandOk | tuplesOk | copyOut | copyIn | badResponse | nonfatalError | fatalError
  | copyBoth | singleTuple | pipelineSync | pipelineAborted | tuplesChunk
  | other (code : Nat)
deriving DecidableEq, Repr

/-- What `pg_result_check` asks a `PGresult`. -/
structure PgResult where
  status : ExecStatusType
  errorMessage : String
  sqlstate : Option Code
deriving DecidableEq, Repr

/-- A raised `PG::Error`: its class, its message, and whether it holds the result. -/
structure Raised where
  klass : Klass
  message : String
  withResult : Bool
deriving DecidableEq, Repr

/-- `pg_result_check`; `none` is a result libpq did not give. -/
def pgResultCheck (connErrorMessage : String) (pgresult : Option PgResult) : Except Raised Unit :=
  let raise (error : String) : Except Raised Unit :=
    .error ⟨lookupErrorClass (pgresult.bind PgResult.sqlstate), error, pgresult.isSome⟩
  match pgresult with
  | none => raise connErrorMessage
  | some result =>
    match result.status with
    | .tuplesOk | .copyOut | .copyIn | .copyBoth | .singleTuple | .emptyQuery | .commandOk | .pipelineSync
    | .tuplesChunk => .ok ()
    | .badResponse | .fatalError | .nonfatalError | .pipelineAborted => raise result.errorMessage
    | .other _ => raise "internal error : unknown result status."

/-- `rescue` for the second class catches an exception of the first one. -/
def KindOf : Klass → Klass → Prop :=
  Relation.ReflTransGen fun klass superclass => classes.superclass.lookup klass = some superclass

/-- The statuses that are no error. -/
def ExecStatusType.good : ExecStatusType → Bool
  | .tuplesOk | .copyOut | .copyIn | .copyBoth | .singleTuple | .emptyQuery | .commandOk | .pipelineSync | .tuplesChunk => true
  | _ => false

theorem pgResultCheck_raises {connErrorMessage : String} {result : PgResult} {e : Raised}
    (raised : pgResultCheck connErrorMessage (some result) = .error e) :
    e.klass = lookupErrorClass result.sqlstate ∧ e.withResult = true := by
  unfold pgResultCheck at raised
  dsimp only at raised
  split at raised
  all_goals first | (cases raised; exact ⟨rfl, rfl⟩) | cases raised

/-- The class of an SQLSTATE is the class of its SQLSTATE class or right below it. -/
theorem lookupErrorClass_cases (sqlstate : Code) :
    (∃ h, classes.hErrors.lookup (sqlclass sqlstate) = some h ∧
      (lookupErrorClass (some sqlstate) = h ∨ classes.superclass.lookup (lookupErrorClass (some sqlstate)) = some h)) ∨
      classes.hErrors.lookup (sqlclass sqlstate) = none ∧ lookupErrorClass (some sqlstate) = .serverError := by
  unfold lookupErrorClass
  dsimp only
  cases known : classes.hErrors.lookup sqlstate with
  | some k => exact .inl (classes_tree.member sqlstate k known)
  | none =>
    dsimp only
    cases head : classes.hErrors.lookup (sqlclass sqlstate) with
    | some h => exact .inl ⟨h, rfl, .inl rfl⟩
    | none => exact .inr ⟨rfl, rfl⟩

/-- The step up from a class. -/
theorem KindOf.up {k c : Klass} (kind : KindOf k c) : k = c ∨ ∃ s, classes.superclass.lookup k = some s ∧ KindOf s c := by
  rcases Relation.ReflTransGen.cases_head kind with same | ⟨s, step, rest⟩
  · exact .inl same
  · exact .inr ⟨s, step, rest⟩

/-- `ServerError` is below no class of an SQLSTATE class. -/
theorem serverError_not_kindOf {c : Klass} (head : classes.superclass.lookup c = some .serverError) :
    ¬KindOf .serverError c := by
  intro kind
  have root := classes_tree.root
  have top := classes_tree.top
  have above := classes_tree.above
  rcases kind.up with rfl | ⟨s, step, kind⟩
  · rw [root] at head
    cases head
  · rw [root] at step
    cases step
    rcases kind.up with rfl | ⟨s, step, kind⟩
    · rw [top] at head
      cases head
    · rw [top] at step
      cases step
      rcases kind.up with rfl | ⟨s, step, -⟩
      · rw [above] at head
        cases head
      · rw [above] at step
        cases step

/-- **A `rescue` for an SQLSTATE class catches exactly its errors.** What `pg_result_check` raises for a result
with an SQLSTATE, in the table or not, is a `PG::ServerError`; and for each class `c` of a two character
code, it is a `c` if and only if the SQLSTATE begins with that code. -/
theorem rescue_catches_class (connErrorMessage : String) (result : PgResult) (sqlstate : Code)
    (state : result.sqlstate = some sqlstate) (e : Raised) (raised : pgResultCheck connErrorMessage (some result) = .error e) :
    KindOf e.klass .serverError ∧
      ∀ cc c, sqlclass cc = cc → classes.hErrors.lookup cc = some c → (KindOf e.klass c ↔ sqlclass sqlstate = cc) := by
  obtain ⟨klass, -⟩ := pgResultCheck_raises raised
  rw [state] at klass
  rw [klass]
  have tree := classes_tree
  rcases lookupErrorClass_cases sqlstate with ⟨h, found, placed⟩ | ⟨unknown, generic⟩
  · have short := sqlclass_sqlclass sqlstate
    have below := tree.head _ h short found
    have up : KindOf (lookupErrorClass (some sqlstate)) h := by
      rcases placed with same | step
      · rw [same]
        exact .refl
      · exact .single step
    refine ⟨up.tail below, fun cc c code head => ⟨fun kind => ?_, fun prefixed => ?_⟩⟩
    · have root := tree.head cc c code head
      have away : KindOf h c → sqlclass sqlstate = cc := by
        intro kind
        rcases kind.up with rfl | ⟨s, step, kind⟩
        · exact tree.sole _ _ h short code found head
        · rw [below] at step
          cases step
          exact absurd kind (serverError_not_kindOf root)
      rcases placed with same | step
      · rw [same] at kind
        exact away kind
      · rcases kind.up with rfl | ⟨s, step', kind⟩
        · -- a class of its own would be right below `ServerError`
          rw [root] at step
          cases step
          exact absurd (Relation.ReflTransGen.refl) (serverError_not_kindOf below)
        · rw [step] at step'
          cases step'
          exact away kind
    · rw [prefixed, head] at found
      cases found
      exact up
  · rw [generic]
    refine ⟨.refl, fun cc c code head => ⟨fun kind => absurd kind (serverError_not_kindOf (tree.head cc c code head)), ?_⟩⟩
    intro prefixed
    rw [prefixed, head] at unknown
    cases unknown

theorem pgResultCheck_fatal (connErrorMessage errorMessage : String) (sqlstate : Option Code) :
    pgResultCheck connErrorMessage (some ⟨.fatalError, errorMessage, sqlstate⟩) =
      .error ⟨lookupErrorClass sqlstate, errorMessage, true⟩ := rfl

/-- A state of the class 08 that the table does not know. -/
def unknownState : Code := ['0', '8', '9', '9', '9']

theorem rescue_catches_class_08 :
    KindOf (lookupErrorClass (some unknownState)) .serverError ∧
      ∀ cc c, sqlclass cc = cc → classes.hErrors.lookup cc = some c →
        (KindOf (lookupErrorClass (some unknownState)) c ↔ sqlclass unknownState = cc) :=
  rescue_catches_class "" _ unknownState rfl _ (pgResultCheck_fatal "" "server closed" (some unknownState))

end RubyPg.Errors
