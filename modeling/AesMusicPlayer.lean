import AesMusicPlayer.StaleResults
import AesMusicPlayer.FileRaces
import AesMusicPlayer.TransferAlone
import AesMusicPlayer.SpiCommand
import AesMusicPlayer.CodecMemories
import AesMusicPlayer.TransferMemories
import AesMusicPlayer.SpiReset
import AesMusicPlayer.KeySchedule
import AesMusicPlayer.I2sLateWords
import AesMusicPlayer.SignalWait
import AesMusicPlayer.AesHandover
import AesMusicPlayer.PlayerRuns
import AesMusicPlayer.VirtualFile
import AesMusicPlayer.Rescan
import AesMusicPlayer.XattrSymbols
import AesMusicPlayer.UiIteration
import AesMusicPlayer.PlayBuffers
import AesMusicPlayer.VolumeControl
import AesMusicPlayer.TransferSizes
import AesMusicPlayer.PlayRequest
import AesMusicPlayer.AesStreams
import AesMusicPlayer.AxiLite
import AesMusicPlayer.Shutdown
import AesMusicPlayer.DmaCallbacks
import AesMusicPlayer.DmaMappings
import AesMusicPlayer.CodecSetup
import AesMusicPlayer.FifoInterrupts
