import EightBit.Opcode

/-! Why a machine stops before it halts. -/
namespace EightBit

/-- Why an output device refuses a text. -/
inductive WriteFailure where
  | notFound | permissionDenied | connectionRefused | connectionReset | hostUnreachable
  | networkUnreachable | connectionAborted | notConnected | addrInUse | addrNotAvailable
  | networkDown | brokenPipe | alreadyExists | wouldBlock | notADirectory | isADirectory
  | directoryNotEmpty | readOnlyFilesystem | filesystemLoop | staleNetworkFileHandle
  | invalidInput | invalidData | timedOut | writeZero | storageFull | notSeekable
  | quotaExceeded | fileTooLarge | resourceBusy | executableFileBusy | deadlock
  | crossesDevices | tooManyLinks | invalidFilename | argumentListTooLong | interrupted
  | unsupported | unexpectedEof | outOfMemory | inProgress | other | uncategorized
  deriving DecidableEq, Inhabited

namespace WriteFailure

def all : List WriteFailure :=
  [notFound, permissionDenied, connectionRefused, connectionReset, hostUnreachable,
    networkUnreachable, connectionAborted, notConnected, addrInUse, addrNotAvailable,
    networkDown, brokenPipe, alreadyExists, wouldBlock, notADirectory, isADirectory,
    directoryNotEmpty, readOnlyFilesystem, filesystemLoop, staleNetworkFileHandle,
    invalidInput, invalidData, timedOut, writeZero, storageFull, notSeekable,
    quotaExceeded, fileTooLarge, resourceBusy, executableFileBusy, deadlock,
    crossesDevices, tooManyLinks, invalidFilename, argumentListTooLong, interrupted,
    unsupported, unexpectedEof, outOfMemory, inProgress, other, uncategorized]

def name : WriteFailure → String
  | notFound => "NotFound"
  | permissionDenied => "PermissionDenied"
  | connectionRefused => "ConnectionRefused"
  | connectionReset => "ConnectionReset"
  | hostUnreachable => "HostUnreachable"
  | networkUnreachable => "NetworkUnreachable"
  | connectionAborted => "ConnectionAborted"
  | notConnected => "NotConnected"
  | addrInUse => "AddrInUse"
  | addrNotAvailable => "AddrNotAvailable"
  | networkDown => "NetworkDown"
  | brokenPipe => "BrokenPipe"
  | alreadyExists => "AlreadyExists"
  | wouldBlock => "WouldBlock"
  | notADirectory => "NotADirectory"
  | isADirectory => "IsADirectory"
  | directoryNotEmpty => "DirectoryNotEmpty"
  | readOnlyFilesystem => "ReadOnlyFilesystem"
  | filesystemLoop => "FilesystemLoop"
  | staleNetworkFileHandle => "StaleNetworkFileHandle"
  | invalidInput => "InvalidInput"
  | invalidData => "InvalidData"
  | timedOut => "TimedOut"
  | writeZero => "WriteZero"
  | storageFull => "StorageFull"
  | notSeekable => "NotSeekable"
  | quotaExceeded => "QuotaExceeded"
  | fileTooLarge => "FileTooLarge"
  | resourceBusy => "ResourceBusy"
  | executableFileBusy => "ExecutableFileBusy"
  | deadlock => "Deadlock"
  | crossesDevices => "CrossesDevices"
  | tooManyLinks => "TooManyLinks"
  | invalidFilename => "InvalidFilename"
  | argumentListTooLong => "ArgumentListTooLong"
  | interrupted => "Interrupted"
  | unsupported => "Unsupported"
  | unexpectedEof => "UnexpectedEof"
  | outOfMemory => "OutOfMemory"
  | inProgress => "InProgress"
  | other => "Other"
  | uncategorized => "Uncategorized"

def ofName? (name : String) : Option WriteFailure :=
  all.find? (·.name == name)

theorem mem_all (w : WriteFailure) : w ∈ all := by
  cases w <;> decide

end WriteFailure

/-- Every fault ends the run of the machine that meets it. -/
inductive Fault where
  /-- A cell outside of the memory, or a return address wider than a cell. -/
  | noSuchAddress (address : Nat)
  | noSuchRegister (index : UInt8)
  | unknownOpcode (code : UInt8) (pc : UInt16)
  /-- An opcode that is no operation on two registers. -/
  | notArithmetic (opcode : Opcode)
  | writeFailed (failure : WriteFailure)
  deriving DecidableEq

namespace Fault

def message : Fault → String
  | noSuchAddress address => "memory has no address `0x" ++ hexUpper address ++ "`"
  | noSuchRegister index => "register `R" ++ decimal index.toNat ++ "` does not exist"
  | unknownOpcode code pc =>
    "invalid opcode `0x" ++ hexUpper code.toNat ++ "` at `0x" ++ hexUpper pc.toNat ++ "`"
  | notArithmetic opcode => "unsupported ALU operation `" ++ opcode.name ++ "`"
  | writeFailed failure => "failed to write output: " ++ failure.name

/-- Whether an address or a register index was too large. -/
def isOutOfBounds : Fault → Bool
  | noSuchAddress _ | noSuchRegister _ => true
  | unknownOpcode .. | notArithmetic _ | writeFailed _ => false

end Fault
end EightBit
