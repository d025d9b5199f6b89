import AeraRecovery.Lib.Bytes

namespace AeraRecovery.PluginApi

open Lib Bytes

/-- The kinds of messages about the clipboard. All others are answered alike. -/
inductive Kind
  | getClipboard
  | setClipboard
  | clipboardChunk
  | clipboardResult
  | other (n : UInt32)
  deriving DecidableEq

def charArray (size : Nat) (s : Bytes) : Bytes := s ++ List.replicate (size - s.length) 0

def cString (array : Bytes) : Bytes := array.takeWhile (· ≠ 0)

structure Message where
  kind : Kind
  requestId : UInt32 := 0
  value : UInt32 := 0
  flags : UInt32 := 0
  title : Bytes := charArray 96 []
  text : Bytes := charArray 1024 []
  deriving DecidableEq

def stringsValid (message : Message) : Bool := 0 ∈ message.title.take 96 && 0 ∈ message.text.take 1024

end AeraRecovery.PluginApi
