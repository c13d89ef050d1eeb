import Kanata.Lib.BitField
import Kanata.Basic
import Kanata.Keyberon.Switch
import Kanata.Lib.Fallible
import Kanata.Parser.SExpr
import Kanata.Parser.Switch
import Kanata.Switch.Meaning
import Kanata.Switch.Encode
import Kanata.Switch.Machine
import Kanata.Switch.Compile
import Kanata.Keyberon.Chord
import Kanata.Lib.Machine
import Kanata.Chord.Decision
import Kanata.Chord.Tick
import Kanata.Chord.Session
import Kanata.Chord.Skip
import Kanata.Chord.Activation
import Kanata.Chord.Conservation
import Kanata.Chord.Coordinates
import Kanata.Chord.Ledger
import Kanata.Chord.Release
import Kanata.Parser.Chord
import Kanata.Chord.Capacity
import Kanata.Keyberon.Action
import Kanata.Keyberon.Waiting
import Kanata.Keyberon.State
import Kanata.Keyberon.Layout
import Kanata.Layout.Discipline
import Kanata.Layout.Performs
import Kanata.Layout.Panics
import Kanata.Layout.Branches
import Kanata.Layout.Decided
import Kanata.Layout.Virtual
import Kanata.Layout.Run
import Kanata.Layout.Repeating
import Kanata.Layout.Advances
import Kanata.Layout.Frame
import Kanata.Layout.Trace
import Kanata.Layout.Customs
import Kanata.Layout.Pending
import Kanata.Parser.Macro
import Kanata.Layout.Uniform
import Kanata.Layout.Layers
import Kanata.Layout.Macros
import Kanata.Parser.Vars
import Kanata.Parser.MacroTree
import Kanata.Parser.MacroNesting
import Kanata.Layout.Overflow
import Kanata.Layout.Composed
import Kanata.Layout.InRange
import Kanata.HoldTap.Completion
import Kanata.Parser.CustomTapHold
import Kanata.HoldTap.Batching
import Kanata.HoldTap.Delayed
import Kanata.HoldTap.Termination
import Kanata.Engine.EventSorting
import Kanata.Engine.MillisecondCounting
import Kanata.Lib.Acyclic
import Kanata.Lib.Greedy
import Kanata.Lib.EraseFirst
import Kanata.Lib.Utf8
import Kanata.Parser.Lexer
import Kanata.Lexing.Tokens
import Kanata.Lexing.Trees
import Kanata.Lib.Rearrange
import Kanata.Parser.Permutations
import Kanata.Parser.Sequence
import Kanata.Engine.Sequences
import Kanata.Engine.KeyStream
import Kanata.Parser.KeyOutputs
import Kanata.Layout.Calls
import Kanata.Parser.ChordGroups
import Kanata.Parser.ChordResolution
import Kanata.Parser.ChordKeyBits
import Kanata.Engine.SequenceMatching
import Kanata.Engine.KeyRepeat
import Kanata.Waiting.Decomposition
import Kanata.Waiting.TapDance
import Kanata.Layout.MacroGroups
import Kanata.Layout.Follows
import Kanata.Layout.EagerTapDance
import Kanata.Waiting.FastPath
import Kanata.Engine.Additions
import Kanata.Layout.Looks
import Kanata.Lib.BinarySearch
import Kanata.Parser.Subset
import Kanata.Engine.Scrolling
import Kanata.Engine.DynamicMacro
import Kanata.Engine.MacroRecording
import Kanata.Engine.MacroReplay
import Kanata.Lib.PathTree
import Kanata.Lib.Text
import Kanata.Parser.Zippychord
import Kanata.Parser.ZippyTree
import Kanata.Engine.Unmod
import Kanata.Lexing.Words
import Kanata.Lexing.Printing
import Kanata.Layout.Idle
import Kanata.Engine.Idle
import Kanata.Lib.Countdown
import Kanata.Engine.CapsWord
import Kanata.Lib.Masks
import Kanata.Engine.Overrides
import Kanata.Parser.LayerPanics
import Kanata.Parser.ChordFile
import Kanata.Parser.ChordFileTotal
import Kanata.Engine.SequenceEncoding
import Kanata.Parser.Orders
import Kanata.Layout.Release
import Kanata.Engine.CmdOutput
import Kanata.Lib.Timeline
import Kanata.Layout.Ages
import Kanata.Lib.Typing
import Kanata.Engine.Zippychord
import Kanata.Engine.ZippyKeys
import Kanata.Engine.ZippyText
import Kanata.Engine.MacroRoundTrip
import Kanata.Engine.MouseMovement
import Kanata.Engine.HeldVkeys
import Kanata.Parser.TemplateExpansion
import Kanata.Parser.TemplateMeaning
import Kanata.Layout.Told
import Kanata.Layout.Pause
