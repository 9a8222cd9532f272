import Prose.Splice
import Prose.SortedMap
import Prose.WriterCalls
import Prose.WriterFlat
import Prose.WriterCapture
import Prose.WriterSplice
import Prose.WriterRestore
import Prose.Trail
import Prose.WriterUndo
import Prose.WriterEvolve
import Prose.WriterInvariants
import Prose.WriterTracking
import Prose.WriterRedo
import Prose.WriterImages
import Prose.WriterRemoval
import Prose.WriterRemoveUndo
import Prose.Ledger
import Prose.WriterAnchors
import Prose.WriterTop
import Prose.WriterUndoRedo
import Prose.PaintDoc
import Prose.PaintStroke
import Prose.PaintBounds
import Prose.Runs
import Prose.PaintLoad
import Prose.PaintWhole
import Prose.PaintCache
import Prose.DrawDoc
import Prose.Refs
import Prose.DrawRefs
import Prose.BMessage
import Prose.DrawMessage
import Prose.Sink
import Prose.WriterPdf
import Prose.DrawPdf
import Prose.Scan
import Prose.WriterRtf
import Prose.WriterRtfReader
import Prose.WriterRtfTokens
import Prose.WriterShown
import Prose.WriterRtfBody
import Prose.WriterRtfTables
import Prose.WriterRtfText
import Prose.WriterRtfParas
import Prose.WriterRtfChars
import Prose.WriterRtfGroups
import Prose.AlphaBeta
import Prose.OthelloModel
import Prose.OthelloExact
import Prose.OthelloRules
import Prose.OthelloUndo
import Prose.OthelloGame
import Prose.Chunks
import Prose.ClangdLsp
import Prose.JsonSyntax
import Prose.ClangdJson
import Prose.ClangdJsonText
import Prose.ClangdRoundTrip
import Prose.ClangdServer
import Prose.ClangdColumns
import Prose.ClangdSnap
import Prose.ClangdReplies
import Prose.ChipText
import Prose.Loops
import Prose.ChipAbc
import Prose.ChipLengths
import Prose.ChipReading
import Prose.ChipSteps
import Prose.ChipDurations
import Prose.ChipHeader
import Prose.ChipEnvelope
import Prose.ChipSchedule
import Prose.TrioModel
import Prose.TrioVoices
import Prose.TrioTiming
import Prose.MidiParser
import Prose.PortalCalls
import Prose.PortalWaiting
import Prose.PrdsModel
import Prose.PrdsSteps
import Prose.PrdsTraps
import Prose.PaneShader
import Prose.PrdsCommit
import Prose.PaneReads
import Prose.HostfsModel
import Prose.Pointers
import Prose.HostfsTable
import Prose.HostfsSections
import Prose.HostfsOrder
import Prose.Tasks
import Prose.Extents
import Prose.PagesModel
import Prose.PagesSound
import Prose.PagesSections
import Prose.PagesRuns
import Prose.SlotsModel
import Prose.SlotsSound
import Prose.SlotsSteps
import Prose.SlotsRuns
import Prose.HandlesModel
import Prose.HandlesSound
import Prose.HandlesRuns
import Prose.FileCacheModel
import Prose.FileCacheDebts
import Prose.FileCacheSizes
import Prose.FileCacheStamps
import Prose.Bytes
import Prose.DirModel
import Prose.DirReads
import Prose.AutomationWaits
import Prose.VirtioRing
import Prose.VirtioSeen
import Prose.CommandDebts
import Prose.CommandKept
import Prose.CommandRuns
import Prose.SoundDebts
import Prose.SoundKept
import Prose.SoundRuns
import Prose.RingBuffer
import Prose.TransfersModel
import Prose.TransfersDebts
import Prose.TransfersKept
import Prose.TransfersSteps
import Prose.TransfersRuns
import Prose.ArenaModel
import Prose.ArenaKept
import Prose.ArenaRuns
import Prose.GamePaneFrames
import Prose.PackageListing
import Prose.PackageArranged
import Prose.PackageMoves
import Prose.PackageAgrees
import Prose.PortalDaemon
import Prose.PortalFrames
import Prose.PortalResults
import Prose.WriterRestyle
import Prose.Matching
import Prose.WriterReplace
import Prose.WriterRows
import Prose.WriterTables
import Prose.WriterColumns
import Prose.ProxyHead
import Prose.ProxyRewrite
import Prose.ProxyRelay
import Prose.ProxyRuns
import Prose.Pieces
import Prose.Utf8
import Prose.WriterUnicode
import Prose.MidiPlay
import Prose.Slices
import Prose.MidiSynth
import Prose.MidiSeek
import Prose.MidiFile
import Prose.MidiFileSafe
import Prose.MidiSmf
import Prose.MidiSmfRead
import Prose.MidiSmfFile
import Prose.MidiSmfTimes
import Prose.LayoutModel
import Prose.LayoutChars
import Prose.LayoutTable
import Prose.LayoutLines
import Prose.LayoutPages
import Prose.WriterMessage
import Prose.WriterSaveLoad
import Prose.Cuts
import Prose.LayoutCache
import Prose.LayoutOffsets
import Prose.LayoutSegments
import Prose.DrawLabel
import Prose.PaintErase
import Prose.PaintOver
import Prose.Explore
import Prose.PaintFill
import Prose.PrdsReset
import Prose.InputKeys
import Prose.SoundControl
import Prose.HostfsPages
import Prose.CommitHook
