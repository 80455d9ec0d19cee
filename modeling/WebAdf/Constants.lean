/-!
# Disk and track sizes

The sizes every part shares: a double-density disk of 160 tracks of 11 sectors,
a high-density one of 160 tracks of 22, and the MFM track the board streams.
-/

namespace WebAdf

abbrev Bytes := List UInt8

def sectors : Nat := 11
def tracks : Nat := 160
def sectorDataBytes : Nat := 512
def trackDataBytes : Nat := sectors * sectorDataBytes
def adfBytes : Nat := tracks * trackDataBytes

def hdSectors : Nat := 22
def hdTrackDataBytes : Nat := hdSectors * sectorDataBytes
def adfHdBytes : Nat := tracks * hdTrackDataBytes

end WebAdf
