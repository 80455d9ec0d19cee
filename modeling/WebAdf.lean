import WebAdf.Lib.Slice
import WebAdf.Constants
import WebAdf.DiskHistory.Diff
import WebAdf.DiskHistory.DeltaLaws
import WebAdf.DiskHistory.Chain
import WebAdf.DiskHistory.Store
import WebAdf.Lib.Run
import WebAdf.DiskHistory.StoreInv
import WebAdf.DiskHistory.StoreSafe
import WebAdf.Lib.Bits
import WebAdf.Lib.Clocking
import WebAdf.Adfmfm.Mfm
import WebAdf.Adfmfm.Track
import WebAdf.Adfmfm.Layout
import WebAdf.Firmware.Mfm
import WebAdf.Firmware.EncodeLaws
import WebAdf.Firmware.ShiftLaws
import WebAdf.Firmware.DecodeLaws
import WebAdf.Firmware.PnetLz4
import WebAdf.Firmware.PnetLz4Encode
import WebAdf.Firmware.PnetMfm
import WebAdf.Firmware.PnetLz4Iter
import WebAdf.Firmware.PnetPack
import WebAdf.Firmware.PnetMfmLaws
import WebAdf.Firmware.PnetBatch
import WebAdf.DiskHistory.Version
import WebAdf.DeviceWrite.Handlers
import WebAdf.DeviceWrite.System
import WebAdf.DeviceWrite.Inv
import WebAdf.DeviceWrite.Onward
import WebAdf.DeviceWrite.BoardSteps
import WebAdf.DeviceWrite.ServerSteps
import WebAdf.DeviceWrite.Recorded
import WebAdf.TrackCache.Cache
import WebAdf.TrackCache.Coherent
import WebAdf.AmigaReq.Body
import WebAdf.AmigaReq.Engine
import WebAdf.AmigaReq.BodyLaws
import WebAdf.AmigaReq.Delivered
import WebAdf.Uploading.Tracks
import WebAdf.Uploading.Uploader
import WebAdf.Uploading.System
import WebAdf.Uploading.Inv
import WebAdf.Uploading.Kept
import WebAdf.Uploading.Refused
import WebAdf.Receive.Parse
import WebAdf.Receive.Fs
import WebAdf.Receive.Session
import WebAdf.Receive.Uploads
import WebAdf.Receive.Requests
import WebAdf.Receive.Files
import WebAdf.Receive.Feed
import WebAdf.Receive.Aside
import WebAdf.Receive.FeedLaws
import WebAdf.Receive.Starts
import WebAdf.Receive.Ends
import WebAdf.Receive.Saved
import WebAdf.Receive.Again
import WebAdf.Receive.Survives
import WebAdf.Http.Cuts
import WebAdf.TrackCache.Tokens
import WebAdf.Http.Complete
import WebAdf.Lib.Endian
import WebAdf.TrackCache.ImageLoader
import WebAdf.TrackCache.LoaderCuts
import WebAdf.TrackCache.Containers
import WebAdf.TrackCache.LoaderRuns
import WebAdf.TrackCache.LoaderAccepts
import WebAdf.TrackCache.LoaderEnds
import WebAdf.Adfmfm.Wfmf
import WebAdf.TrackCache.Stored
import WebAdf.TrackCache.Mirror
import WebAdf.Lib.Json
import WebAdf.Poll.Body
import WebAdf.Poll.Fits
import WebAdf.Lib.Ascii
import WebAdf.Send.Queue
import WebAdf.Send.Board
import WebAdf.Send.BoardLaws
import WebAdf.Send.Names
import WebAdf.Send.Lines
import WebAdf.Server.Tables
import WebAdf.Server.Transfers
import WebAdf.Server.Cursor
import WebAdf.Browse.Wire
import WebAdf.Browse.Requests
import WebAdf.Browse.Answers
import WebAdf.Browse.Agree
import WebAdf.Server.Requests
import WebAdf.Server.Moves
import WebAdf.Server.World
import WebAdf.Server.Turns
import WebAdf.Server.Once
import WebAdf.Firmware.PnetRing
import WebAdf.Lib.StopAndWait
import WebAdf.Server.Stranded
import WebAdf.Firmware.PnetLink
import WebAdf.Firmware.PnetDelivery
import WebAdf.Firmware.Sha256
import WebAdf.Firmware.FwOffer
import WebAdf.Firmware.FwState
import WebAdf.Firmware.FwUpdate
import WebAdf.Firmware.FwApplied
import WebAdf.Firmware.FwBoots
import WebAdf.Firmware.FwRollback
import WebAdf.Fetch.Address
import WebAdf.Fetch.Texts
import WebAdf.Fetch.Judged
import WebAdf.Fetch.Hops
import WebAdf.Firmware.NfcReader
import WebAdf.Firmware.NfcTaps
import WebAdf.Firmware.NfcWrites
import WebAdf.Firmware.NfcSafe
import WebAdf.Adffs.Blocks
import WebAdf.Adffs.Volume
import WebAdf.Adffs.Walk
import WebAdf.Adffs.Write
import WebAdf.Adffs.BlockLaws
import WebAdf.Adffs.HeaderLaws
import WebAdf.Adffs.BitmapLaws
import WebAdf.Adffs.FileLaws
import WebAdf.Adffs.LinkLaws
import WebAdf.Adffs.ReadBack
import WebAdf.Adffs.Format
import WebAdf.Adffs.Tree
import WebAdf.Adffs.TreeWalk
import WebAdf.Adffs.Allocation
import WebAdf.Adffs.Image
import WebAdf.DiskHistory.DeltaExact
import WebAdf.DiskHistory.HistoryLaws
import WebAdf.Firmware.Lz4Format
import WebAdf.Firmware.Lz4Memory
import WebAdf.Firmware.Lz4Safe
import WebAdf.Firmware.PnetRle
import WebAdf.Firmware.PnetToBoard
import WebAdf.Firmware.FluxBits
import WebAdf.Firmware.FluxCapture
import WebAdf.Firmware.DecodeNoise
import WebAdf.Firmware.JsonScan
import WebAdf.Adffs.ChainLaws
import WebAdf.Adffs.Linked
import WebAdf.Adffs.Added
import WebAdf.Adffs.Unlinked
import WebAdf.Adffs.Relinked
import WebAdf.Adffs.Usable
import WebAdf.Files.StashNames
import WebAdf.Files.StashShown
import WebAdf.Archive.Dms
import WebAdf.Archive.DmsPlaces
import WebAdf.Http.GetText
import WebAdf.Firmware.PnetRx
import WebAdf.Lib.LeastSquares
import WebAdf.Firmware.PnetRxCells
import WebAdf.Firmware.PnetRxCounts
import WebAdf.Lib.JsonRead
import WebAdf.Offers.Put
import WebAdf.Firmware.StatusFits
import WebAdf.Firmware.WfLog
import WebAdf.Server.StepUp
import WebAdf.Receive.Candidate
import WebAdf.Firmware.Dhcp
import WebAdf.Files.DiskZip
import WebAdf.Files.DiskZipPaths
import WebAdf.DiskSets.Store
import WebAdf.DiskSets.Plans
import WebAdf.DiskSets.Undo
import WebAdf.DiskSets.PutBack
import WebAdf.Covers.Jpeg
import WebAdf.Covers.Chunks
import WebAdf.Covers.Stored
import WebAdf.Firmware.Portal
import WebAdf.Firmware.PortalKeeps
import WebAdf.Firmware.PortalPage
