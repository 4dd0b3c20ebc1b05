import Swan.Cpu.Execute.Control
import Swan.Cpu.Execute.Strings

/-! Every operation with its execution. -/
namespace Swan

variable {β : Type} [Bus β]

def Operation.execute : Operation → Exec β Retired
  | nop => return { cycles := 1 }
  | binaryToRm w op => Exec.binaryToRm w op
  | binaryToReg w op => Exec.binaryToReg w op
  | binaryAccumulator w op => Exec.binaryAccumulator w op
  | binaryImmediate w form => Exec.binaryImmediate w form
  | testRm w => Exec.testRm w
  | testAccumulator w => Exec.testAccumulator w
  | incReg r => Exec.incReg r
  | decReg r => Exec.decReg r
  | adjust a => Exec.adjust a
  | toDigits => Exec.toDigits
  | ofDigits => Exec.ofDigits
  | imulImmediate form => Exec.imulImmediate form
  | shiftRm w count => Exec.shiftRm w count
  | group3 w => Exec.group3 w
  | group4 => Exec.group4
  | group5 => Exec.group5
  | pushSegment s => Exec.pushSegment s
  | popSegment s => Exec.popSegment s
  | pushReg r => Exec.pushReg r
  | popReg r => Exec.popReg r
  | pushAll => Exec.pushAll
  | popAll => Exec.popAll
  | pushImmediate form => Exec.pushImmediate form
  | popRm => Exec.popRm
  | pushFlags => Exec.pushFlags
  | popFlags => Exec.popFlags
  | enter => Exec.enter
  | leave => Exec.leave
  | moveToRm w => Exec.moveToRm w
  | moveToReg w => Exec.moveToReg w
  | moveFromSegment => Exec.moveFromSegment
  | moveToSegment => Exec.moveToSegment
  | moveImmediate w i => Exec.moveImmediate w i
  | moveRmImmediate w => Exec.moveRmImmediate w
  | loadDirect w => Exec.loadDirect w
  | storeDirect w => Exec.storeDirect w
  | loadAddress => Exec.loadAddress
  | loadFar s => Exec.loadFar s
  | translate => Exec.translate
  | exchangeRm w => Exec.exchangeRm w
  | exchangeAccumulator r => Exec.exchangeAccumulator r
  | widenByte => Exec.widenByte
  | widenWord => Exec.widenWord
  | carryToAl => Exec.carryToAl
  | flagsFromAh => Exec.flagsFromAh
  | flagsToAh => Exec.flagsToAh
  | command c => Exec.command c
  | string w op => Exec.string w op
  | portIn w source => Exec.inputPort w source
  | portOut w source => Exec.outputPort w source
  | jumpIf c => Exec.jumpIf c
  | jumpIfCxZero => Exec.jumpIfCxZero
  | loop test => Exec.loop test
  | jumpShort => Exec.jumpShort
  | jumpNear => Exec.jumpNear
  | jumpFar => Exec.jumpFar
  | callNear => Exec.callNear
  | callFar => Exec.callFar
  | returnNear release => Exec.returnNear release
  | returnFar release => Exec.returnFar release
  | breakpoint => Exec.breakpoint
  | interrupt => Exec.softwareInterrupt
  | interruptOnOverflow => Exec.interruptOnOverflow
  | returnInterrupt => Exec.returnInterrupt
  | bound => Exec.bound
  | escape => Exec.escape
  | halt => Exec.halt

end Swan
